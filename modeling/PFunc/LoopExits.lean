import PFunc.LabelledRuns
import PFunc.Space1D

/-!
# How `parallel_for` and `parallel_reduce` exit

In the build with exceptions `run` stores what the functor throws in its task, and the check in
`wait` or `notify` throws it again. The spawned objects and the call at the root are tasks here,
numbered in the order of their spawns; the calls of `operator()` that a task has entered and not
left are its frames. Which thread runs a task is left open, save that a task taken inside
`progress_wait` has the waiting task as its host.
-/

namespace PFunc.LoopExits

open LabelledRuns

variable {S : Type}

/-- A type of iteration spaces. -/
structure SpaceType (S : Type) where
  arity : ℕ
  canSplit : S → Bool
  /-- the first subspace and the others -/
  split : S → S × List S
  length_split : ∀ s, canSplit s → (split s).2.length + 1 = arity
  /-- no space can be split forever -/
  finite : ∃ depth : S → ℕ, ∀ s, canSplit s →
    depth (split s).1 < depth s ∧ ∀ o ∈ (split s).2, depth o < depth s

/-- The spaces that `func` is called on for a space. -/
inductive Leaf (sp : SpaceType S) : S → S → Prop
  | self {s : S} (h : ¬sp.canSplit s) : Leaf sp s s
  | first {s l : S} (h : sp.canSplit s) (hl : Leaf sp (sp.split s).1 l) : Leaf sp s l
  | other {s o l : S} (h : sp.canSplit s) (ho : o ∈ (sp.split s).2) (hl : Leaf sp o l) : Leaf sp s l

/-- Where the thread is that runs a task. -/
inductive Ctl (S : Type) where
  | unspawned
  | queued (space : S)
  /-- before `can_split` -/
  | entering (space : S)
  /-- in `func` -/
  | calling (space : S)
  /-- before the next spawn, with the space it keeps and those that are left -/
  | spawning (first : S) (others : List S)
  /-- in `wait_all`, before the `wait` for the first of the tasks -/
  | joining (tasks : List ℕ)
  /-- in the `wait` for a task, about to test its event -/
  | waiting (c : ℕ) (tasks : List ℕ)
  /-- about to look into the queue -/
  | seeking (c : ℕ) (tasks : List ℕ)
  /-- running another task -/
  | hosting (c : ℕ) (tasks : List ℕ)
  /-- after `wait_all`, with this many functors to join -/
  | folding (k : ℕ)
  /-- in the catch block of `run` -/
  | storing
  /-- about to call `notify` -/
  | notifying
  | finished
  deriving DecidableEq

structure Task (S : Type) where
  ctl : Ctl S
  /-- the tasks that each call has spawned, from the innermost call -/
  frames : List (List ℕ)
  host : Option ℕ
  except : Bool
  complete : Bool
  deriving DecidableEq

def Task.new (space : S) : Task S := ⟨.queued space, [], none, false, false⟩

/-- Its thread has still to run it, or to leave `run` and `notify`. -/
def Task.isUnfinished (t : Task S) : Bool :=
  match t.ctl with
  | .finished => false
  | _ => true

structure State (S : Type) where
  task : ℕ → Task S
  count : ℕ
  /-- the tasks that were unfinished when the call that spawned them exited -/
  orphans : List ℕ

inductive Label where
  /-- a thread takes the task, in its work loop or in the wait of the host -/
  | take (i : ℕ) (host : Option ℕ)
  | move (i : ℕ)
  /-- `func` throws -/
  | throw (i : ℕ)
  deriving DecidableEq

namespace State

def set (s : State S) (i : ℕ) (t : Task S) : State S :=
  { s with task := Function.update s.task i t }

def goto (s : State S) (i : ℕ) (c : Ctl S) : State S := s.set i { s.task i with ctl := c }

/-- The call splits its space. -/
def enter (s : State S) (i : ℕ) (first : S) (others : List S) : State S :=
  s.set i { s.task i with ctl := .spawning first others, frames := [] :: (s.task i).frames }

def spawn (s : State S) (i : ℕ) (first o : S) (others : List S) : State S :=
  let t := { s.task i with
    ctl := .spawning first others, frames := (s.task i).frames.modifyHead (· ++ [s.count]) }
  { (s.set i t).set s.count (.new o) with count := s.count + 1 }

def start (s : State S) (i : ℕ) (host : Option ℕ) (space : S) : State S :=
  s.set i { s.task i with ctl := .entering space, host := host }

/-- A call has returned to the one around it, or to `run`. -/
def ret (s : State S) (i : ℕ) : State S :=
  match (s.task i).frames with
  | [] => s.goto i .notifying
  | tasks :: _ => s.goto i (.joining tasks)

/-- The calls of these frames exit. -/
def exit (s : State S) (frames : List (List ℕ)) : State S :=
  { s with orphans := s.orphans ++ frames.flatten.filter fun c => (s.task c).isUnfinished }

/-- The innermost call that has split exits normally. -/
def leave (s : State S) (i : ℕ) : State S :=
  ((s.exit ((s.task i).frames.take 1)).set i
    { s.task i with frames := (s.task i).frames.drop 1 }).ret i

/-- An exception leaves all calls of the task. -/
def unwind (s : State S) (i : ℕ) : State S :=
  (s.exit (s.task i).frames).set i { s.task i with ctl := .storing, frames := [] }

def store (s : State S) (i : ℕ) : State S :=
  s.set i { s.task i with ctl := .notifying, except := true }

/-- The catch block in `wait` stores the exception in the task too. -/
def setExcept (s : State S) (c : ℕ) : State S := s.set c { s.task c with except := true }

/-- The exception that `notify` throws leaves the wait of the host. -/
def failHost (s : State S) (j : ℕ) : State S :=
  match (s.task j).ctl with
  | .hosting c _ => (s.setExcept c).unwind j
  | _ => s

/-- The host goes on waiting. -/
def resumeHost (s : State S) (j : ℕ) : State S :=
  match (s.task j).ctl with
  | .hosting c tasks => s.goto j (.waiting c tasks)
  | _ => s

/-- Without a host the exception leaves the work loop. -/
def rethrow (s : State S) (i : ℕ) : State S :=
  let s' := s.goto i .finished
  match (s.task i).host with
  | none => s'
  | some j => s'.failHost j

def notify (s : State S) (i : ℕ) : State S :=
  let s' := s.set i { s.task i with ctl := .finished, complete := true }
  match (s.task i).host with
  | none => s'
  | some j => s'.resumeHost j

end State

section Steps

variable (sp : SpaceType S) (joins : ℕ → ℕ) (throws : S → Bool)

def move (s : State S) (i : ℕ) : Option (State S) :=
  match (s.task i).ctl with
  | .entering space =>
    if sp.canSplit space then some (s.enter i (sp.split space).1 (sp.split space).2)
    else some (s.goto i (.calling space))
  | .spawning first [] => some (s.goto i (.entering first))
  | .spawning first (o :: others) => some (s.spawn i first o others)
  | .calling _ => some (s.ret i)
  | .joining [] => some (s.goto i (.folding (joins ((s.task i).frames.headD []).length)))
  | .joining (c :: tasks) =>
    if (s.task c).except then some (s.unwind i) else some (s.goto i (.waiting c tasks))
  | .waiting c tasks =>
    if (s.task c).complete then some (s.goto i (.joining tasks))
    else some (s.goto i (.seeking c tasks))
  | .seeking c tasks => some (s.goto i (.waiting c tasks))
  | .folding (k + 1) => some (s.goto i (.folding k))
  | .folding 0 => some (s.leave i)
  | .storing => some (s.store i)
  | .notifying => if (s.task i).except then some (s.rethrow i) else some (s.notify i)
  | _ => none

def take (s : State S) (i : ℕ) (host : Option ℕ) : Option (State S) :=
  match (s.task i).ctl, host with
  | .queued space, none => some (s.start i none space)
  | .queued space, some j =>
    match (s.task j).ctl with
    | .seeking c tasks => some ((s.goto j (.hosting c tasks)).start i (some j) space)
    | _ => none
  | _, _ => none

def step (s : State S) : Label → Option (State S)
  | .take i host => take s i host
  | .move i => move sp joins s i
  | .throw i =>
    match (s.task i).ctl with
    | .calling space => if throws space then some (s.unwind i) else none
    | _ => none

/-- `operator()` of an object for the space has been called, and `joins` says how many functors
are joined after so many waits. -/
def system (space : S) : System (State S) Label where
  initial := ⟨fun i => if i = 0 then { Task.new space with ctl := .entering space }
    else { Task.new space with ctl := .unspawned }, 1, []⟩
  step := step sp joins throws

/-- `func` may throw on the spaces with `throws`. -/
def parallelFor (space : S) : System (State S) Label := system sp (fun _ => 0) throws space

def parallelReduce (space : S) : System (State S) Label := system sp id throws space

end Steps

/-! ### What a step can do -/

variable {sp : SpaceType S} {joins : ℕ → ℕ} {throws : S → Bool} {space : S} {s s' : State S}
  {l : Label} {i j : ℕ} {t : Task S}

/-- The steps that change nothing but where a thread is. -/
inductive Goes (sp : SpaceType S) (s : State S) (i : ℕ) : Ctl S → Prop
  | call {space : S} (h : (s.task i).ctl = .entering space) (hs : ¬sp.canSplit space) :
      Goes sp s i (.calling space)
  | nested {first : S} (h : (s.task i).ctl = .spawning first []) : Goes sp s i (.entering first)
  | joined {k : ℕ} (h : (s.task i).ctl = .joining []) : Goes sp s i (.folding k)
  | wait {c : ℕ} {tasks : List ℕ} (h : (s.task i).ctl = .joining (c :: tasks)) :
      Goes sp s i (.waiting c tasks)
  | awaited {c : ℕ} {tasks : List ℕ} (h : (s.task i).ctl = .waiting c tasks)
      (hc : (s.task c).complete) : Goes sp s i (.joining tasks)
  | look {c : ℕ} {tasks : List ℕ} (h : (s.task i).ctl = .waiting c tasks) :
      Goes sp s i (.seeking c tasks)
  | back {c : ℕ} {tasks : List ℕ} (h : (s.task i).ctl = .seeking c tasks) :
      Goes sp s i (.waiting c tasks)
  | fold {k : ℕ} (h : (s.task i).ctl = .folding (k + 1)) : Goes sp s i (.folding k)

inductive Effect (sp : SpaceType S) (throws : S → Bool) (s : State S) : State S → Prop
  | goto {i : ℕ} {c : Ctl S} (h : Goes sp s i c) : Effect sp throws s (s.goto i c)
  | enter {i : ℕ} {space : S} (h : (s.task i).ctl = .entering space) (hs : sp.canSplit space) :
      Effect sp throws s (s.enter i (sp.split space).1 (sp.split space).2)
  | spawn {i : ℕ} {first o : S} {others : List S}
      (h : (s.task i).ctl = .spawning first (o :: others)) :
      Effect sp throws s (s.spawn i first o others)
  | ret {i : ℕ} {space : S} (h : (s.task i).ctl = .calling space) : Effect sp throws s (s.ret i)
  | leave {i : ℕ} (h : (s.task i).ctl = .folding 0) : Effect sp throws s (s.leave i)
  | thrown {i : ℕ} {space : S} (h : (s.task i).ctl = .calling space) (ht : throws space) :
      Effect sp throws s (s.unwind i)
  | failed {i c : ℕ} {tasks : List ℕ} (h : (s.task i).ctl = .joining (c :: tasks))
      (he : (s.task c).except) : Effect sp throws s (s.unwind i)
  | store {i : ℕ} (h : (s.task i).ctl = .storing) : Effect sp throws s (s.store i)
  | rethrow {i : ℕ} (h : (s.task i).ctl = .notifying) (he : (s.task i).except) :
      Effect sp throws s (s.rethrow i)
  | notify {i : ℕ} (h : (s.task i).ctl = .notifying) : Effect sp throws s (s.notify i)
  | start {i : ℕ} {space : S} (h : (s.task i).ctl = .queued space) :
      Effect sp throws s (s.start i none space)
  | host {i j c : ℕ} {tasks : List ℕ} {space : S} (h : (s.task i).ctl = .queued space)
      (hj : (s.task j).ctl = .seeking c tasks) :
      Effect sp throws s ((s.goto j (.hosting c tasks)).start i (some j) space)

theorem move_effect (h : move sp joins s i = some s') : Effect sp throws s s' := by
  unfold move at h
  split at h
  next hctl =>
    split at h
    next hs =>
      cases h
      exact .enter hctl hs
    next hs =>
      cases h
      exact .goto (.call hctl hs)
  next hctl =>
    cases h
    exact .goto (.nested hctl)
  next hctl =>
    cases h
    exact .spawn hctl
  next hctl =>
    cases h
    exact .ret hctl
  next hctl =>
    cases h
    exact .goto (.joined hctl)
  next hctl =>
    split at h
    next he =>
      cases h
      exact .failed hctl he
    next =>
      cases h
      exact .goto (.wait hctl)
  next hctl =>
    split at h
    next hc =>
      cases h
      exact .goto (.awaited hctl hc)
    next =>
      cases h
      exact .goto (.look hctl)
  next hctl =>
    cases h
    exact .goto (.back hctl)
  next hctl =>
    cases h
    exact .goto (.fold hctl)
  next hctl =>
    cases h
    exact .leave hctl
  next hctl =>
    cases h
    exact .store hctl
  next hctl =>
    split at h
    next he =>
      cases h
      exact .rethrow hctl he
    next =>
      cases h
      exact .notify hctl
  next => cases h

theorem step_effect (h : step sp joins throws s l = some s') : Effect sp throws s s' := by
  cases l with
  | move i => exact move_effect h
  | take i host =>
    simp only [step, take] at h
    split at h
    next hctl =>
      cases h
      exact .start hctl
    next hctl =>
      split at h
      next hj =>
        cases h
        exact .host hctl hj
      next => cases h
    next => cases h
  | throw i =>
    simp only [step] at h
    split at h
    next hctl =>
      simp only [Option.ite_none_right_eq_some, Option.some.injEq] at h
      obtain ⟨ht, rfl⟩ := h
      exact .thrown hctl ht
    next => cases h

/-! ### What holds in every run -/

namespace State

@[simp] theorem set_self (s : State S) (i : ℕ) (t : Task S) : (s.set i t).task i = t :=
  Function.update_self ..

theorem set_of_ne (s : State S) (h : j ≠ i) (t : Task S) : (s.set i t).task j = s.task j :=
  Function.update_of_ne h _ _

@[simp] theorem set_orphans (s : State S) (i : ℕ) (t : Task S) :
    (s.set i t).orphans = s.orphans := rfl

theorem set_set (s : State S) (i : ℕ) (t t' : Task S) : (s.set i t).set i t' = s.set i t' := by
  simp [set]

@[simp] theorem exit_task (s : State S) (frames : List (List ℕ)) :
    (s.exit frames).task = s.task := rfl

/-- What holds of every task still does where one is replaced by another of which it holds. -/
theorem forall_task_set {s : State S} {t : Task S} {i : ℕ} {Q : Task S → Prop}
    (h : ∀ j, Q (s.task j)) (ht : Q t) (j : ℕ) : Q ((s.set i t).task j) := by
  by_cases hj : j = i
  · subst hj
    rw [set_self]
    exact ht
  · rw [set_of_ne _ hj]
    exact h j

/-- After `notify` has thrown, nothing has happened but to the task and to its host. -/
theorem rethrow_of_host {s : State S} {i : ℕ} {I : State S → Prop} (h : I (s.goto i .finished))
    (hhost : ∀ s' j, I s' → I (s'.failHost j)) : I (s.rethrow i) := by
  unfold rethrow
  split
  next => exact h
  next j _ => exact hhost _ j h

theorem notify_of_host {s : State S} {i : ℕ} {I : State S → Prop}
    (h : I (s.set i { s.task i with ctl := .finished, complete := true }))
    (hhost : ∀ s' j, I s' → I (s'.resumeHost j)) : I (s.notify i) := by
  unfold notify
  split
  next => exact h
  next j _ => exact hhost _ j h

/-- What does not depend on the pointers `except` is as before. -/
theorem setExcept_task (s : State S) (c j : ℕ) :
    ((s.setExcept c).task j).ctl = (s.task j).ctl ∧
      ((s.setExcept c).task j).frames = (s.task j).frames ∧
      ((s.setExcept c).task j).complete = (s.task j).complete := by
  by_cases hj : j = c
  · subst hj
    simp [setExcept]
  · simp [setExcept, set_of_ne _ hj]

end State

/-- The tasks that the innermost call has still to wait for. -/
def Ctl.pending : Ctl S → Option (List ℕ)
  | .joining tasks => some tasks
  | .waiting c tasks => some (c :: tasks)
  | .seeking c tasks => some (c :: tasks)
  | .hosting c tasks => some (c :: tasks)
  | .folding _ => some []
  | _ => none

structure Invariant (s : State S) : Prop where
  fresh : ∀ n, s.count ≤ n → (s.task n).ctl = .unspawned
  complete : ∀ i, (s.task i).complete → (s.task i).ctl = .finished
  joined : ∀ i tasks, (s.task i).ctl.pending = some tasks →
    ∀ c ∈ (s.task i).frames.headD [], c ∈ tasks ∨ (s.task c).ctl = .finished

namespace Invariant

theorem set (h : Invariant s) (hi : (s.task i).ctl ≠ .unspawned)
    (hfin : (s.task i).ctl ≠ .finished) (hcomplete : t.complete → t.ctl = .finished)
    (hjoined : ∀ tasks, t.ctl.pending = some tasks →
      ∀ c ∈ t.frames.headD [], c ∈ tasks ∨ (s.task c).ctl = .finished) :
    Invariant (s.set i t) := by
  have hkeep : ∀ c, (s.task c).ctl = .finished → ((s.set i t).task c).ctl = .finished := by
    intro c hc
    have hne : c ≠ i := by
      intro he
      exact hfin (he ▸ hc)
    rw [State.set_of_ne _ hne]
    exact hc
  refine ⟨?_, ?_, ?_⟩
  · intro n hn
    have hne : n ≠ i := by
      intro he
      exact hi (he ▸ h.fresh n hn)
    rw [State.set_of_ne _ hne]
    exact h.fresh n hn
  · exact State.forall_task_set (Q := fun t => t.complete → t.ctl = .finished) h.complete hcomplete
  · refine State.forall_task_set (Q := fun t => ∀ tasks, t.ctl.pending = some tasks →
      ∀ c ∈ t.frames.headD [], c ∈ tasks ∨ ((s.set i _).task c).ctl = .finished) ?_ ?_
    · intro j tasks hj c hc
      exact (h.joined j tasks hj c hc).imp_right (hkeep c)
    · intro tasks hj c hc
      exact (hjoined tasks hj c hc).imp_right (hkeep c)

/-- A task that is not finished goes on, where nothing is left to wait for but what was. -/
theorem goto (h : Invariant s) {c : Ctl S} (hi : (s.task i).ctl ≠ .unspawned)
    (hfin : (s.task i).ctl ≠ .finished)
    (hjoined : ∀ tasks, c.pending = some tasks →
      ∀ d ∈ (s.task i).frames.headD [], d ∈ tasks ∨ (s.task d).ctl = .finished) :
    Invariant (s.goto i c) := by
  refine h.set hi hfin ?_ hjoined
  intro hc
  exact absurd (h.complete i hc) hfin

/-- A task goes where it waits for nothing. -/
theorem quit (h : Invariant s) (hi : (s.task i).ctl ≠ .unspawned)
    (hfin : (s.task i).ctl ≠ .finished) (hcomplete : t.complete = (s.task i).complete)
    (hpending : t.ctl.pending = none) : Invariant (s.set i t) := by
  refine h.set hi hfin ?_ ?_
  · intro hc
    exact absurd (h.complete i (hcomplete ▸ hc)) hfin
  · intro tasks hp
    rw [hpending] at hp
    cases hp

theorem exit (h : Invariant s) (frames : List (List ℕ)) : Invariant (s.exit frames) :=
  ⟨h.fresh, h.complete, h.joined⟩

theorem setExcept (h : Invariant s) (c : ℕ) : Invariant (s.setExcept c) := by
  refine ⟨?_, ?_, ?_⟩
  · intro n hn
    rw [(s.setExcept_task c n).1]
    exact h.fresh n hn
  · intro j hj
    rw [(s.setExcept_task c j).2.2] at hj
    rw [(s.setExcept_task c j).1]
    exact h.complete j hj
  · intro j tasks hj d hd
    rw [(s.setExcept_task c j).1] at hj
    rw [(s.setExcept_task c j).2.1] at hd
    rw [(s.setExcept_task c d).1]
    exact h.joined j tasks hj d hd

theorem ret (h : Invariant s) (hi : (s.task i).ctl ≠ .unspawned)
    (hfin : (s.task i).ctl ≠ .finished) : Invariant (s.ret i) := by
  unfold State.ret
  split
  next => exact h.quit hi hfin rfl rfl
  next tasks rest hframes =>
    refine h.goto hi hfin ?_
    intro tasks' hp d hd
    cases hp
    rw [hframes] at hd
    exact .inl hd

theorem unwind (h : Invariant s) (hi : (s.task i).ctl ≠ .unspawned)
    (hfin : (s.task i).ctl ≠ .finished) : Invariant (s.unwind i) :=
  (h.exit _).quit hi hfin rfl rfl

theorem add (h : Invariant s) (o : S) :
    Invariant { s.set s.count (.new o) with count := s.count + 1 } := by
  have hnew : (s.task s.count).ctl = .unspawned := h.fresh _ (Nat.le_refl _)
  have hkeep : ∀ c, (s.task c).ctl = .finished →
      ((s.set s.count (.new o)).task c).ctl = .finished := by
    intro c hc
    have hne : c ≠ s.count := by
      intro he
      rw [he, hnew] at hc
      cases hc
    rw [State.set_of_ne _ hne]
    exact hc
  refine ⟨?_, ?_, ?_⟩
  · intro n hn
    change s.count + 1 ≤ n at hn
    change ((s.set s.count (.new o)).task n).ctl = .unspawned
    rw [State.set_of_ne _ (by omega)]
    exact h.fresh n (by omega)
  · intro j hj
    change ((s.set s.count (.new o)).task j).complete at hj
    change ((s.set s.count (.new o)).task j).ctl = .finished
    by_cases he : j = s.count
    · subst he
      simp [Task.new] at hj
    · rw [State.set_of_ne _ he] at hj ⊢
      exact h.complete j hj
  · intro j tasks hj c hc
    change ((s.set s.count (.new o)).task j).ctl.pending = some tasks at hj
    change c ∈ ((s.set s.count (.new o)).task j).frames.headD [] at hc
    by_cases he : j = s.count
    · subst he
      simp [Task.new, Ctl.pending] at hj
    · rw [State.set_of_ne _ he] at hj hc
      exact (h.joined j tasks hj c hc).imp_right (hkeep c)

theorem leave (h : Invariant s) (hi : (s.task i).ctl = .folding 0) : Invariant (s.leave i) := by
  have hnotcomplete : (s.task i).complete → False := by
    intro hc
    have hfin := h.complete i hc
    rw [hi] at hfin
    cases hfin
  have hset : ∀ c : Ctl S, (∀ tasks, c.pending = some tasks →
      tasks = ((s.task i).frames.drop 1).headD []) →
      Invariant ((s.exit ((s.task i).frames.take 1)).set i
        { s.task i with ctl := c, frames := (s.task i).frames.drop 1 }) := by
    intro c hc
    refine (h.exit _).set (by simp [hi]) (by simp [hi]) (fun hcomplete => ?_) ?_
    · exact absurd hcomplete hnotcomplete
    · intro tasks hp d hd
      exact .inl (hc tasks hp ▸ hd)
  unfold State.leave State.ret
  simp only [State.set_self, State.goto, State.set_set]
  split
  next =>
    refine hset _ ?_
    intro tasks hp
    cases hp
  next hframes =>
    refine hset _ ?_
    intro tasks hp
    cases hp
    rw [hframes]
    rfl

theorem failHost (h : Invariant s) (j : ℕ) : Invariant (s.failHost j) := by
  unfold State.failHost
  split
  next c tasks hj =>
    refine (h.setExcept c).unwind ?_ ?_
    · rw [(s.setExcept_task c j).1, hj]
      simp
    · rw [(s.setExcept_task c j).1, hj]
      simp
  next => exact h

theorem resumeHost (h : Invariant s) (j : ℕ) : Invariant (s.resumeHost j) := by
  unfold State.resumeHost
  split
  next c tasks hj =>
    refine h.goto (by simp [hj]) (by simp [hj]) ?_
    intro tasks' hp
    exact h.joined j tasks' (by simpa [hj, Ctl.pending] using hp)
  next => exact h

theorem rethrow (h : Invariant s) (hi : (s.task i).ctl = .notifying) :
    Invariant (s.rethrow i) :=
  State.rethrow_of_host (h.quit (by simp [hi]) (by simp [hi]) rfl rfl) fun _ j h' => h'.failHost j

theorem notify (h : Invariant s) (hi : (s.task i).ctl = .notifying) : Invariant (s.notify i) := by
  refine State.notify_of_host ?_ fun _ j h' => h'.resumeHost j
  refine h.set (by simp [hi]) (by simp [hi]) (fun _ => rfl) ?_
  intro tasks hp
  cases hp

theorem start (h : Invariant s) (hi : (s.task i).ctl = .queued space) (host : Option ℕ) :
    Invariant (s.start i host space) :=
  h.quit (by simp [hi]) (by simp [hi]) rfl rfl

theorem goes (h : Invariant s) {c : Ctl S} (hgoes : Goes sp s i c) : Invariant (s.goto i c) := by
  cases hgoes with
  | call hctl => exact h.quit (by simp [hctl]) (by simp [hctl]) rfl rfl
  | nested hctl => exact h.quit (by simp [hctl]) (by simp [hctl]) rfl rfl
  | joined hctl =>
    refine h.goto (by simp [hctl]) (by simp [hctl]) ?_
    intro tasks hp
    cases hp
    exact h.joined i [] (by simp [hctl, Ctl.pending])
  | @wait d tasks hctl =>
    refine h.goto (by simp [hctl]) (by simp [hctl]) ?_
    intro tasks' hp
    exact h.joined i tasks' (by simpa [hctl, Ctl.pending] using hp)
  | @awaited d tasks hctl hcomplete =>
    refine h.goto (by simp [hctl]) (by simp [hctl]) ?_
    intro tasks' hp e he
    cases hp
    have hfin := h.complete d hcomplete
    rcases h.joined i (d :: tasks) (by simp [hctl, Ctl.pending]) e he with hmem | hdone
    · rcases List.mem_cons.mp hmem with rfl | hmem
      · exact .inr hfin
      · exact .inl hmem
    · exact .inr hdone
  | look hctl =>
    refine h.goto (by simp [hctl]) (by simp [hctl]) ?_
    intro tasks' hp
    exact h.joined i tasks' (by simpa [hctl, Ctl.pending] using hp)
  | back hctl =>
    refine h.goto (by simp [hctl]) (by simp [hctl]) ?_
    intro tasks' hp
    exact h.joined i tasks' (by simpa [hctl, Ctl.pending] using hp)
  | fold hctl =>
    refine h.goto (by simp [hctl]) (by simp [hctl]) ?_
    intro tasks' hp
    exact h.joined i tasks' (by simpa [hctl, Ctl.pending] using hp)

theorem effect (h : Invariant s) (he : Effect sp throws s s') : Invariant s' := by
  cases he with
  | goto hgoes => exact h.goes hgoes
  | enter hctl _ => exact h.quit (by simp [hctl]) (by simp [hctl]) rfl rfl
  | @spawn i first o others hctl =>
    have hset := h.quit (i := i) (t := { s.task i with
      ctl := .spawning first others, frames := (s.task i).frames.modifyHead (· ++ [s.count]) })
      (by simp [hctl]) (by simp [hctl]) rfl rfl
    exact hset.add o
  | ret hctl => exact h.ret (by simp [hctl]) (by simp [hctl])
  | leave hctl => exact h.leave hctl
  | thrown hctl _ => exact h.unwind (by simp [hctl]) (by simp [hctl])
  | failed hctl _ => exact h.unwind (by simp [hctl]) (by simp [hctl])
  | store hctl => exact h.quit (by simp [hctl]) (by simp [hctl]) rfl rfl
  | rethrow hctl _ => exact h.rethrow hctl
  | notify hctl => exact h.notify hctl
  | start hctl => exact h.start hctl none
  | @host i j c tasks space hctl hj =>
    have hne : i ≠ j := by
      rintro rfl
      rw [hctl] at hj
      cases hj
    refine Invariant.start ?_ ?_ (some j)
    · refine h.goto (by simp [hj]) (by simp [hj]) ?_
      intro tasks' hp
      exact h.joined j tasks' (by simpa [hj, Ctl.pending] using hp)
    · rw [State.goto, State.set_of_ne _ hne]
      exact hctl

end Invariant

theorem invariant_initial : Invariant (system sp joins throws space).initial := by
  refine ⟨?_, ?_, ?_⟩
  · intro n hn
    change 1 ≤ n at hn
    have hne : n ≠ 0 := by omega
    simp [system, hne]
  · intro i hi
    by_cases he : i = 0 <;> simp [system, he, Task.new] at hi
  · intro i tasks hi
    by_cases he : i = 0 <;> simp [system, he, Ctl.pending] at hi

theorem invariant_reachable
    (hr : (system sp joins throws space).Reachable (fun _ _ => True) s) : Invariant s :=
  hr.invariant invariant_initial fun _ _ _ h _ hs => h.effect (step_effect hs)

/-- The spaces that `operator()` is still to be entered for. -/
def Ctl.spaces : Ctl S → List S
  | .queued space => [space]
  | .entering space => [space]
  | .calling space => [space]
  | .spawning first others => first :: others
  | _ => []

/-- The spaces at hand have a property, and `func` is called on leaves. -/
structure Spaces (sp : SpaceType S) (P : S → Prop) (s : State S) : Prop where
  holds : ∀ i, ∀ x ∈ (s.task i).ctl.spaces, P x
  leaf : ∀ i x, (s.task i).ctl = .calling x → ¬sp.canSplit x

namespace Spaces

variable {P : S → Prop}

theorem set (h : Spaces sp P s) (hholds : ∀ x ∈ t.ctl.spaces, P x)
    (hleaf : ∀ x, t.ctl = .calling x → ¬sp.canSplit x) : Spaces sp P (s.set i t) := by
  constructor
  · exact State.forall_task_set (Q := fun t => ∀ x ∈ t.ctl.spaces, P x) h.holds hholds
  · exact State.forall_task_set (Q := fun t => ∀ x, t.ctl = .calling x → ¬sp.canSplit x) h.leaf
      hleaf

/-- A thread goes where no space is at hand. -/
theorem quit (h : Spaces sp P s) (hc : t.ctl.spaces = []) : Spaces sp P (s.set i t) := by
  refine h.set ?_ ?_
  · simp [hc]
  · intro x hx
    rw [hx] at hc
    cases hc

theorem exit (h : Spaces sp P s) (frames : List (List ℕ)) : Spaces sp P (s.exit frames) :=
  ⟨h.holds, h.leaf⟩

theorem ret (h : Spaces sp P s) (i : ℕ) : Spaces sp P (s.ret i) := by
  unfold State.ret
  split <;> exact h.quit rfl

theorem unwind (h : Spaces sp P s) (i : ℕ) : Spaces sp P (s.unwind i) := (h.exit _).quit rfl

theorem setExcept (h : Spaces sp P s) (c : ℕ) : Spaces sp P (s.setExcept c) :=
  h.set (h.holds c) (h.leaf c)

theorem failHost (h : Spaces sp P s) (j : ℕ) : Spaces sp P (s.failHost j) := by
  unfold State.failHost
  split
  next c _ _ => exact (h.setExcept c).unwind j
  next => exact h

theorem resumeHost (h : Spaces sp P s) (j : ℕ) : Spaces sp P (s.resumeHost j) := by
  unfold State.resumeHost
  split
  next => exact h.quit rfl
  next => exact h

theorem goes (h : Spaces sp P s) {c : Ctl S} (hgoes : Goes sp s i c) :
    Spaces sp P (s.goto i c) := by
  have hholds := h.holds i
  cases hgoes with
  | @call x hctl hs =>
    rw [hctl] at hholds
    refine h.set hholds ?_
    intro y hy
    cases hy
    exact hs
  | @nested first hctl =>
    rw [hctl] at hholds
    refine h.set hholds ?_
    intro y hy
    cases hy
  | _ => exact h.quit rfl

theorem effect (hP : ∀ x, P x → sp.canSplit x → P (sp.split x).1 ∧ ∀ o ∈ (sp.split x).2, P o)
    (h : Spaces sp P s) (he : Effect sp throws s s') : Spaces sp P s' := by
  cases he with
  | goto hgoes => exact h.goes hgoes
  | @enter i x hctl hs =>
    have hx : P x := h.holds i x (by simp [hctl, Ctl.spaces])
    obtain ⟨hfirst, hothers⟩ := hP x hx hs
    refine h.set ?_ ?_
    · exact List.forall_mem_cons.mpr ⟨hfirst, hothers⟩
    · intro y hy
      cases hy
  | @spawn i first o others hctl =>
    have hholds := h.holds i
    rw [hctl] at hholds
    obtain ⟨hfirst, hrest⟩ := List.forall_mem_cons.mp hholds
    obtain ⟨ho, hothers⟩ := List.forall_mem_cons.mp hrest
    have hrest' := (h.set (i := i) (t := { s.task i with
      ctl := .spawning first others, frames := (s.task i).frames.modifyHead (· ++ [s.count]) })
      (List.forall_mem_cons.mpr ⟨hfirst, hothers⟩) (by simp)).set (i := s.count) (t := .new o)
      (by simpa [Task.new, Ctl.spaces] using ho) (by simp [Task.new])
    exact ⟨hrest'.holds, hrest'.leaf⟩
  | ret => exact h.ret _
  | @leave i =>
    refine Spaces.ret ((h.exit _).set ?_ ?_) _
    · exact h.holds i
    · exact h.leaf i
  | thrown => exact h.unwind _
  | failed => exact h.unwind _
  | store => exact h.quit rfl
  | rethrow => exact State.rethrow_of_host (h.quit rfl) fun _ j h' => h'.failHost j
  | notify => exact State.notify_of_host (h.quit rfl) fun _ j h' => h'.resumeHost j
  | @start i x hctl =>
    refine h.set ?_ ?_
    · have hholds := h.holds i
      rw [hctl] at hholds
      exact hholds
    · intro y hy
      cases hy
  | @host i j c tasks x hctl hj =>
    refine Spaces.set (h.quit rfl) ?_ ?_
    · have hholds := h.holds i
      rw [hctl] at hholds
      exact hholds
    · intro y hy
      cases hy

theorem reachable (hP : ∀ x, P x → sp.canSplit x → P (sp.split x).1 ∧ ∀ o ∈ (sp.split x).2, P o)
    (hroot : P space) (hr : (system sp joins throws space).Reachable (fun _ _ => True) s) :
    Spaces sp P s := by
  refine hr.invariant ?_ fun _ _ _ h _ hs => h.effect hP (step_effect hs)
  constructor
  · intro i x hx
    by_cases hi : i = 0
    · simp only [system, hi, Ctl.spaces, ↓reduceIte, List.mem_singleton] at hx
      exact hx ▸ hroot
    · simp [system, hi, Ctl.spaces] at hx
  · intro i x hx
    by_cases hi : i = 0 <;> simp [system, hi] at hx

end Spaces

/-! ### Runs without orphans -/

/-- The tasks of a call that exits normally are finished. -/
theorem exit_leave (h : Invariant s) (hi : (s.task i).ctl = .folding 0) :
    (s.exit ((s.task i).frames.take 1)).orphans = s.orphans := by
  have hfinished : ∀ c ∈ (s.task i).frames.headD [], (s.task c).ctl = .finished := by
    intro c hc
    rcases h.joined i [] (by simp [hi, Ctl.pending]) c hc with hmem | hdone
    · cases hmem
    · exact hdone
  cases hframes : (s.task i).frames with
  | nil => simp [State.exit]
  | cons tasks rest =>
    rw [hframes] at hfinished
    simp only [State.exit, List.take_succ_cons, List.take_zero, List.flatten_cons,
      List.flatten_nil, List.append_nil, List.append_right_eq_self,
      List.filter_eq_nil_iff]
    intro c hc
    simp [Task.isUnfinished, hfinished c hc]

/-- No exception is on its way. -/
structure Calm (s : State S) : Prop where
  orphans : s.orphans = []
  except : ∀ i, (s.task i).except = false
  storing : ∀ i, (s.task i).ctl ≠ .storing

namespace Calm

theorem set (h : Calm s) (hexcept : t.except = false) (hstoring : t.ctl ≠ .storing) :
    Calm (s.set i t) := by
  refine ⟨h.orphans, ?_, ?_⟩
  · exact State.forall_task_set (Q := fun t => t.except = false) h.except hexcept
  · exact State.forall_task_set (Q := fun t => t.ctl ≠ .storing) h.storing hstoring

theorem ret (h : Calm s) (i : ℕ) : Calm (s.ret i) := by
  unfold State.ret
  split <;> exact h.set (h.except i) (by simp)

theorem resumeHost (h : Calm s) (j : ℕ) : Calm (s.resumeHost j) := by
  unfold State.resumeHost
  split
  next => exact h.set (h.except j) (by simp)
  next => exact h

theorem effect (h : Calm s) (hinv : Invariant s)
    (hquiet : ∀ i x, (s.task i).ctl = .calling x → ¬throws x) (he : Effect sp throws s s') :
    Calm s' := by
  cases he with
  | goto hgoes => exact h.set (h.except _) (by cases hgoes <;> simp)
  | enter => exact h.set (h.except _) (by simp)
  | @spawn i first o others =>
    have hset := (h.set (i := i) (t := { s.task i with
      ctl := .spawning first others, frames := (s.task i).frames.modifyHead (· ++ [s.count]) })
      (h.except i) (by simp)).set (i := s.count) (t := .new o) rfl (by simp [Task.new])
    exact ⟨hset.orphans, hset.except, hset.storing⟩
  | ret => exact h.ret _
  | @leave i hctl =>
    have hexit : Calm (s.exit ((s.task i).frames.take 1)) :=
      ⟨(exit_leave hinv hctl).trans h.orphans, h.except, h.storing⟩
    have hset := hexit.set (i := i) (t := { s.task i with frames := (s.task i).frames.drop 1 })
      (h.except i) (by simp [hctl])
    exact hset.ret i
  | thrown hctl ht => exact absurd ht (hquiet _ _ hctl)
  | failed _ hexcept => simp [h.except] at hexcept
  | store hctl => exact absurd hctl (h.storing _)
  | rethrow _ hexcept => simp [h.except] at hexcept
  | notify =>
    exact State.notify_of_host (h.set (h.except _) (by simp)) fun _ j h' => h'.resumeHost j
  | start => exact h.set (h.except _) (by simp)
  | @host i j c tasks x hctl hj =>
    have hset := h.set (i := j) (t := { s.task j with ctl := .hosting c tasks }) (h.except j)
      (by simp)
    exact hset.set (hset.except i) (by simp)

end Calm

theorem calm_reachable (hquiet : ∀ x, Leaf sp space x → ¬throws x)
    (hr : (system sp joins throws space).Reachable (fun _ _ => True) s) : Calm s := by
  refine hr.invariant' (I := Calm) ?_ ?_
  · refine ⟨rfl, ?_, ?_⟩
    · intro i
      by_cases hi : i = 0 <;> simp [system, hi, Task.new]
    · intro i
      by_cases hi : i = 0 <;> simp [system, hi]
  · intro s l s' hr h _ hs
    have hspaces := Spaces.reachable (P := fun x => ∀ y, Leaf sp x y → ¬throws y)
      (fun x hx hs => ⟨fun y hy => hx y (.first hs hy), fun o ho y hy => hx y (.other hs ho hy)⟩)
      hquiet hr
    refine h.effect (invariant_reachable hr) ?_ (step_effect hs)
    intro i x hx
    exact hspaces.holds i x (by simp [hx, Ctl.spaces]) x (.self (hspaces.leaf i x hx))

/-- No task has been spawned. -/
structure Alone (s : State S) : Prop where
  orphans : s.orphans = []
  frames : ∀ i, ∀ tasks ∈ (s.task i).frames, tasks = []
  spawning : ∀ i first others, (s.task i).ctl = .spawning first others → others = []

namespace Alone

theorem set (h : Alone s) (hframes : ∀ tasks ∈ t.frames, tasks = [])
    (hspawning : ∀ first others, t.ctl = .spawning first others → others = []) :
    Alone (s.set i t) := by
  refine ⟨h.orphans, ?_, ?_⟩
  · exact State.forall_task_set (Q := fun t => ∀ tasks ∈ t.frames, tasks = []) h.frames hframes
  · exact State.forall_task_set
      (Q := fun t => ∀ first others, t.ctl = .spawning first others → others = []) h.spawning
      hspawning

theorem exit (h : Alone s) {frames : List (List ℕ)} (hframes : ∀ tasks ∈ frames, tasks = []) :
    Alone (s.exit frames) := by
  refine ⟨?_, h.frames, h.spawning⟩
  simp only [State.exit, h.orphans, List.flatten_eq_nil_iff.mpr hframes, List.filter_nil,
    List.append_nil]

theorem ret (h : Alone s) (i : ℕ) : Alone (s.ret i) := by
  unfold State.ret
  split <;> exact h.set (h.frames i) (by simp)

theorem unwind (h : Alone s) (i : ℕ) : Alone (s.unwind i) :=
  (h.exit (h.frames i)).set (by simp) (by simp)

theorem setExcept (h : Alone s) (c : ℕ) : Alone (s.setExcept c) :=
  h.set (h.frames c) (h.spawning c)

theorem failHost (h : Alone s) (j : ℕ) : Alone (s.failHost j) := by
  unfold State.failHost
  split
  next c _ _ => exact (h.setExcept c).unwind j
  next => exact h

theorem resumeHost (h : Alone s) (j : ℕ) : Alone (s.resumeHost j) := by
  unfold State.resumeHost
  split
  next => exact h.set (h.frames j) (by simp)
  next => exact h

theorem goes (h : Alone s) {c : Ctl S} (hgoes : Goes sp s i c) : Alone (s.goto i c) :=
  h.set (h.frames i) (by cases hgoes <;> simp)

theorem effect (h : Alone s)
    (hspaces : ∀ i x, (s.task i).ctl = .entering x → ¬sp.canSplit x ∨ sp.arity = 1)
    (he : Effect sp throws s s') : Alone s' := by
  cases he with
  | goto hgoes => exact h.goes hgoes
  | @enter i x hctl hs =>
    have harity : sp.arity = 1 := (hspaces i x hctl).resolve_left (not_not_intro hs)
    have hlength := sp.length_split x hs
    have hothers : (sp.split x).2 = [] := List.eq_nil_of_length_eq_zero (by omega)
    refine h.set ?_ ?_
    · exact List.forall_mem_cons.mpr ⟨rfl, h.frames i⟩
    · intro first others heq
      cases heq
      exact hothers
  | @spawn i first o others hctl =>
    have hnil := h.spawning i first (o :: others) hctl
    cases hnil
  | ret => exact h.ret _
  | @leave i hctl =>
    have hexit : Alone (s.exit ((s.task i).frames.take 1)) :=
      h.exit fun tasks htasks => h.frames i tasks (List.mem_of_mem_take htasks)
    have hset := hexit.set (i := i) (t := { s.task i with frames := (s.task i).frames.drop 1 })
      (fun tasks htasks => h.frames i tasks (List.mem_of_mem_drop htasks)) (by simp [hctl])
    exact hset.ret i
  | thrown => exact h.unwind _
  | failed => exact h.unwind _
  | @store i => exact h.set (h.frames i) (by simp)
  | @rethrow i =>
    exact State.rethrow_of_host (h.set (h.frames i) (by simp)) fun _ j h' => h'.failHost j
  | @notify i =>
    exact State.notify_of_host (h.set (h.frames i) (by simp)) fun _ j h' => h'.resumeHost j
  | @start i => exact h.set (h.frames i) (by simp)
  | @host i j c tasks =>
    have hset := h.set (i := j) (t := { s.task j with ctl := .hosting c tasks }) (h.frames j)
      (by simp)
    exact hset.set (hset.frames i) (by simp)

end Alone

theorem alone_reachable (hsplit : ¬sp.canSplit space ∨ sp.arity = 1)
    (hr : (system sp joins throws space).Reachable (fun _ _ => True) s) : Alone s := by
  refine hr.invariant' (I := Alone) ?_ ?_
  · refine ⟨rfl, ?_, ?_⟩
    · intro i
      by_cases hi : i = 0 <;> simp [system, hi, Task.new]
    · intro i
      by_cases hi : i = 0 <;> simp [system, hi]
  · intro s l s' hr h _ hs
    have hspaces := Spaces.reachable (P := fun x => ¬sp.canSplit x ∨ sp.arity = 1) (by
      intro x hx hs
      have harity := hx.resolve_left (not_not_intro hs)
      exact ⟨.inr harity, fun _ _ => .inr harity⟩) hsplit hr
    refine h.effect ?_ (step_effect hs)
    intro i x hx
    exact hspaces.holds i x (by simp [hx, Ctl.spaces])

/-! ### Runs with orphans -/

/-- Only the task and new ones have moved. -/
structure Alongside (s t : State S) (i : ℕ) : Prop where
  count : s.count ≤ t.count
  others : ∀ d < s.count, d ≠ i → t.task d = s.task d

theorem Alongside.refl (s : State S) (i : ℕ) : Alongside s s i :=
  ⟨Nat.le_refl _, fun _ _ _ => rfl⟩

theorem Alongside.set {t : State S} (h : Alongside s t i) (u : Task S) :
    Alongside s (t.set i u) i := by
  refine ⟨h.count, ?_⟩
  intro d hd hne
  rw [State.set_of_ne _ hne]
  exact h.others d hd hne

theorem Alongside.trans {t u : State S} (h : Alongside s t i) (h' : Alongside t u j)
    (hj : j = i ∨ s.count ≤ j) : Alongside s u i := by
  refine ⟨Nat.le_trans h.count h'.count, ?_⟩
  intro d hd hne
  have hcount := h.count
  rw [h'.others d (by omega) (by omega)]
  exact h.others d hd hne

/-- All the other subspaces are spawned while nothing else moves. -/
theorem exists_spawned {first : S} {others : List S} {tasks : List ℕ} {rest : List (List ℕ)}
    (hr : (system sp joins throws space).Reachable (fun _ _ => True) s) (hi : i < s.count)
    (hctl : (s.task i).ctl = .spawning first others) (hframes : (s.task i).frames = tasks :: rest) :
    ∃ t new, (system sp joins throws space).Reachable (fun _ _ => True) t ∧
      t.task i = { s.task i with ctl := .entering first, frames := (tasks ++ new) :: rest } ∧
      Alongside s t i ∧ (∀ d ∈ new, s.count ≤ d ∧ d < t.count ∧ ∃ o, t.task d = .new o) ∧
      ∀ o ∈ others, ∃ d ∈ new, t.task d = .new o := by
  induction others generalizing s tasks with
  | nil =>
    have hstep : step sp joins throws s (.move i) = some (s.goto i (.entering first)) := by
      simp [step, move, hctl]
    refine ⟨_, [], hr.step (a := Label.move i) trivial hstep, ?_, (Alongside.refl s i).set _, ?_, ?_⟩
    · simp [State.goto, hframes]
    · simp
    · simp
  | cons o others ih =>
    have hstep : step sp joins throws s (.move i) = some (s.spawn i first o others) := by
      simp [step, move, hctl]
    have hne : i ≠ s.count := by omega
    have hspawned : (s.spawn i first o others).task i = { s.task i with
        ctl := .spawning first others, frames := (tasks ++ [s.count]) :: rest } := by
      change ((State.set _ i _).set s.count _).task i = _
      rw [State.set_of_ne _ hne, State.set_self, hframes]
      rfl
    have hnew : (s.spawn i first o others).task s.count = .new o := by
      change ((State.set _ i _).set s.count _).task s.count = _
      rw [State.set_self]
    have halong : Alongside s (s.spawn i first o others) i := by
      refine ⟨Nat.le_succ _, ?_⟩
      intro d hd hdi
      change ((State.set _ i _).set s.count _).task d = _
      rw [State.set_of_ne _ (by omega), State.set_of_ne _ hdi]
    have hcount : (s.spawn i first o others).count = s.count + 1 := rfl
    obtain ⟨t, new, hrt, htask, halong', hqueued, hall⟩ :=
      ih (hr.step (a := Label.move i) trivial hstep) (by omega) (by rw [hspawned])
        (by rw [hspawned])
    have hle := halong'.count
    have hkept : t.task s.count = .new o := by
      rw [halong'.others s.count (by omega) (by omega)]
      exact hnew
    refine ⟨t, s.count :: new, hrt, ?_, halong.trans halong' (.inl rfl), ?_, ?_⟩
    · rw [htask, hspawned]
      simp
    · intro d hd
      rcases List.mem_cons.mp hd with rfl | hd
      · exact ⟨Nat.le_refl _, by omega, o, hkept⟩
      · obtain ⟨hge, hlt, hd⟩ := hqueued d hd
        exact ⟨by omega, hlt, hd⟩
    · intro o' ho'
      rcases List.mem_cons.mp ho' with rfl | ho'
      · exact ⟨s.count, List.mem_cons_self, hkept⟩
      · obtain ⟨d, hd, htd⟩ := hall o' ho'
        exact ⟨d, List.mem_cons_of_mem _ hd, htd⟩

/-- The task has come to the leaf `x` through nested calls only, and each of these has left its
tasks in the queue. -/
structure Descent (sp : SpaceType S) (depth : S → ℕ) (s t : State S) (i : ℕ) (space x : S)
    (frames : List (List ℕ)) : Prop where
  task : t.task i = { s.task i with ctl := .calling x, frames := frames ++ (s.task i).frames }
  alongside : Alongside s t i
  queued : ∀ d ∈ frames.flatten, s.count ≤ d ∧ d < t.count ∧ ∃ o, t.task d = .new o
  nonempty : ∀ tasks ∈ frames, tasks ≠ []
  split : sp.canSplit space → frames ≠ []
  leaf : ∀ l, Leaf sp space l → l = x ∨
    ∃ d ∈ frames.flatten, ∃ o, t.task d = .new o ∧ depth o < depth space ∧ Leaf sp o l

/-- The descent from the first subspace, seen from before the split. -/
theorem Descent.of_first {depth : S → ℕ}
    (hdepth : depth (sp.split space).1 < depth space ∧ ∀ o ∈ (sp.split space).2, depth o < depth space)
    {t u : State S} {x : S} {new : List ℕ} {frames : List (List ℕ)} (hi : i < s.count)
    (hs : sp.canSplit space) (hothers : (sp.split space).2 ≠ [])
    (htask : t.task i = { s.task i with
      ctl := .entering (sp.split space).1, frames := new :: (s.task i).frames })
    (halong : Alongside s t i)
    (hqueued : ∀ d ∈ new, s.count ≤ d ∧ d < t.count ∧ ∃ o, t.task d = .new o)
    (hall : ∀ o ∈ (sp.split space).2, ∃ d ∈ new, t.task d = .new o)
    (h : Descent sp depth t u i (sp.split space).1 x frames) :
    Descent sp depth s u i space x (frames ++ [new]) := by
  have hlet := halong.count
  have hleu := h.alongside.count
  have hkept : ∀ d ∈ new, u.task d = t.task d := by
    intro d hd
    obtain ⟨hge, hlt, -⟩ := hqueued d hd
    exact h.alongside.others d hlt (by omega)
  refine ⟨?_, halong.trans h.alongside (.inl rfl), ?_, ?_, fun _ => by simp, ?_⟩
  · rw [h.task, htask]
    simp
  · intro d hd
    rw [List.flatten_append, List.mem_append] at hd
    rcases hd with hd | hd
    · obtain ⟨hge, hlt, hnew⟩ := h.queued d hd
      exact ⟨by omega, hlt, hnew⟩
    · have hd' : d ∈ new := by simpa using hd
      obtain ⟨hge, hlt, o, ho⟩ := hqueued d hd'
      exact ⟨hge, by omega, o, (hkept d hd').trans ho⟩
  · intro tasks htasks
    rcases List.mem_append.mp htasks with htasks | htasks
    · exact h.nonempty tasks htasks
    · obtain ⟨o, ho⟩ := List.exists_mem_of_ne_nil _ hothers
      obtain ⟨d, hd, -⟩ := hall o ho
      rw [List.mem_singleton.mp htasks]
      exact List.ne_nil_of_mem hd
  · intro l hl
    cases hl with
    | self hnot => exact absurd hs hnot
    | first _ hl =>
      rcases h.leaf l hl with heq | ⟨d, hd, o, ho, hlt, hlo⟩
      · exact .inl heq
      · exact .inr ⟨d, by simp [hd], o, ho, by omega, hlo⟩
    | @other _ o _ _ ho hl =>
      obtain ⟨d, hd, htd⟩ := hall o ho
      exact .inr ⟨d, by simp [hd], o, (hkept d hd).trans htd, hdepth.2 o ho, hl⟩

theorem exists_descent {root : S} (harity : sp.arity ≠ 1) {depth : S → ℕ}
    (hdepth : ∀ s, sp.canSplit s →
      depth (sp.split s).1 < depth s ∧ ∀ o ∈ (sp.split s).2, depth o < depth s)
    (hr : (system sp joins throws root).Reachable (fun _ _ => True) s) (hi : i < s.count)
    (hctl : (s.task i).ctl = .entering space) :
    ∃ t x frames, (system sp joins throws root).Reachable (fun _ _ => True) t ∧
      Descent sp depth s t i space x frames := by
  induction hn : depth space using Nat.strongRecOn generalizing space s with
  | ind n ih =>
    by_cases hs : sp.canSplit space
    · have hstep : step sp joins throws s (.move i) =
          some (s.enter i (sp.split space).1 (sp.split space).2) := by
        simp [step, move, hctl, hs]
      have hothers : (sp.split space).2 ≠ [] := by
        intro hnil
        have hlength := sp.length_split space hs
        rw [hnil] at hlength
        exact harity hlength.symm
      have hspawning : ((s.enter i (sp.split space).1 (sp.split space).2).task i).ctl =
          .spawning (sp.split space).1 (sp.split space).2 := by
        simp [State.enter]
      have hframes : ((s.enter i (sp.split space).1 (sp.split space).2).task i).frames =
          [] :: (s.task i).frames := by
        simp [State.enter]
      obtain ⟨t, new, hrt, htask, halong, hqueued, hall⟩ :=
        exists_spawned (hr.step (a := Label.move i) trivial hstep) hi hspawning hframes
      have hle : s.count ≤ t.count := halong.count
      have hentering : (t.task i).ctl = .entering (sp.split space).1 := by rw [htask]
      obtain ⟨u, x, frames, hru, hdescent⟩ :=
        ih _ (hn ▸ (hdepth space hs).1) hrt (by omega) hentering rfl
      have hsplit : Alongside s (s.enter i (sp.split space).1 (sp.split space).2) i :=
        (Alongside.refl s i).set _
      refine ⟨u, x, frames ++ [new], hru, Descent.of_first (hdepth space hs) hi hs hothers ?_
        (hsplit.trans halong (.inl rfl)) hqueued hall hdescent⟩
      rw [htask]
      simp [State.enter]
    · have hstep : step sp joins throws s (.move i) = some (s.goto i (.calling space)) := by
        simp [step, move, hctl, hs]
      refine ⟨_, space, [], hr.step (a := Label.move i) trivial hstep, ?_,
        (Alongside.refl s i).set _, ?_, ?_, ?_, ?_⟩
      · simp [State.goto]
      · simp
      · simp
      · intro h
        exact absurd h hs
      · intro l hl
        cases hl with
        | self => exact .inl rfl
        | first h _ => exact absurd h hs
        | other h _ _ => exact absurd h hs

theorem unwind_orphans {c : ℕ} (hc : c ∈ (s.task i).frames.flatten)
    (hu : (s.task c).isUnfinished) : (s.unwind i).orphans ≠ [] := by
  have hmem : c ∈ (s.unwind i).orphans := by
    simp only [State.unwind, State.exit, State.set_orphans, List.mem_append, List.mem_filter]
    exact .inr ⟨hc, hu⟩
  exact List.ne_nil_of_mem hmem

/-- The check in `wait` throws while the thread of the awaited task has still to call `notify`. -/
theorem exists_orphan_of_awaited {root : S} {c : ℕ} {tasks : List ℕ}
    (hr : (system sp joins throws root).Reachable (fun _ _ => True) s)
    (hi : (s.task i).ctl = .joining (c :: tasks)) (hc : c ∈ (s.task i).frames.flatten)
    (hnotifying : (s.task c).ctl = .notifying) (hexcept : (s.task c).except) :
    ∃ t, (system sp joins throws root).Reachable (fun _ _ => True) t ∧ t.orphans ≠ [] := by
  have hstep : step sp joins throws s (.move i) = some (s.unwind i) := by
    simp [step, move, hi, hexcept]
  refine ⟨_, hr.step (a := Label.move i) trivial hstep, unwind_orphans hc ?_⟩
  simp [Task.isUnfinished, hnotifying]

/-- `notify` throws through the wait for another task, which is still queued. -/
theorem exists_orphan_of_hosted {root o : S} {c d : ℕ} {tasks : List ℕ}
    (hr : (system sp joins throws root).Reachable (fun _ _ => True) s)
    (hi : (s.task i).ctl = .hosting c tasks) (hc : c ∈ (s.task i).frames.flatten)
    (hqueued : (s.task c).ctl = .queued o) (hnotifying : (s.task d).ctl = .notifying)
    (hexcept : (s.task d).except) (hhost : (s.task d).host = some i) :
    ∃ t, (system sp joins throws root).Reachable (fun _ _ => True) t ∧ t.orphans ≠ [] := by
  have hdi : i ≠ d := by
    rintro rfl
    rw [hi] at hnotifying
    cases hnotifying
  have hdc : c ≠ d := by
    rintro rfl
    rw [hqueued] at hnotifying
    cases hnotifying
  have hhosting : ((s.goto d .finished).task i).ctl = .hosting c tasks := by
    rw [State.goto, State.set_of_ne _ hdi]
    exact hi
  have hstep : step sp joins throws s (.move d) =
      some (((s.goto d .finished).setExcept c).unwind i) := by
    simp [step, move, hnotifying, hexcept, State.rethrow, hhost, State.failHost, hhosting]
  refine ⟨_, hr.step (a := Label.move d) trivial hstep, unwind_orphans (c := c) ?_ ?_⟩
  · rw [(State.setExcept_task _ c i).2.1, State.goto, State.set_of_ne _ hdi]
    exact hc
  · rw [Task.isUnfinished, (State.setExcept_task _ c c).1, State.goto, State.set_of_ne _ hdc,
      hqueued]

/-- An exception of a leaf that is a task of its own is stored. -/
theorem exists_stored {root x : S}
    (hr : (system sp joins throws root).Reachable (fun _ _ => True) s)
    (hctl : s.task i = { t with ctl := .calling x, frames := [] }) (hx : throws x) :
    ∃ u, (system sp joins throws root).Reachable (fun _ _ => True) u ∧
      u.task i = { t with ctl := .notifying, frames := [], except := true } ∧ Alongside s u i := by
  have hthrow : step sp joins throws s (.throw i) = some (s.unwind i) := by
    simp [step, hctl, hx]
  have hstore : step sp joins throws (s.unwind i) (.move i) = some ((s.unwind i).store i) := by
    simp [step, move, State.unwind]
  have halong : Alongside s (s.exit (s.task i).frames) i := ⟨Nat.le_refl _, fun _ _ _ => rfl⟩
  refine ⟨_, (hr.step (a := Label.throw i) trivial hthrow).step (a := Label.move i) trivial hstore,
    ?_, (halong.set _).set _⟩
  simp [State.store, State.unwind, hctl]

/-- While a task waits for a queued one its thread may take another. -/
theorem exists_hosting {root o oc : S} {c d : ℕ} {tasks : List ℕ}
    (hr : (system sp joins throws root).Reachable (fun _ _ => True) s)
    (hi : (s.task i).ctl = .joining (c :: tasks)) (hc : s.task c = .new oc)
    (hd : s.task d = .new o) (hdc : d ≠ c) (hdi : d ≠ i) (hci : c ≠ i) :
    ∃ u, (system sp joins throws root).Reachable (fun _ _ => True) u ∧ u.count = s.count ∧
      u.task i = { s.task i with ctl := .hosting c tasks } ∧ u.task c = .new oc ∧
      u.task d = { Task.new o with ctl := .entering o, host := some i } := by
  have hwait : step sp joins throws s (.move i) = some (s.goto i (.waiting c tasks)) := by
    simp [step, move, hi, hc, Task.new]
  have hlook : step sp joins throws (s.goto i (.waiting c tasks)) (.move i) =
      some ((s.goto i (.waiting c tasks)).goto i (.seeking c tasks)) := by
    simp [step, move, State.goto, State.set_of_ne _ hci, hc, Task.new]
  have hseeking : (s.goto i (.waiting c tasks)).goto i (.seeking c tasks) =
      s.goto i (.seeking c tasks) := by
    simp [State.goto, State.set_set]
  rw [hseeking] at hlook
  have htake : step sp joins throws (s.goto i (.seeking c tasks)) (.take d (some i)) =
      some (((s.goto i (.seeking c tasks)).goto i (.hosting c tasks)).start d (some i) o) := by
    simp [step, take, State.goto, State.set_of_ne _ hdi, hd, Task.new]
  refine ⟨_, ((hr.step (a := Label.move i) trivial hwait).step (a := Label.move i) trivial
    hlook).step (a := Label.take d (some i)) trivial htake, rfl, ?_, ?_, ?_⟩
  · rw [State.start, State.set_of_ne _ hdi.symm]
    simp [State.goto]
  · rw [State.start, State.set_of_ne _ hdc.symm]
    simp [State.goto, State.set_of_ne _ hci, hc]
  · simp [State.start, State.goto, State.set_of_ne _ hdi, hd]

/-- Every task that has been entered for the space can go on until there is an orphan, or, if the
space is a leaf, until its exception is stored. -/
def EndsByThrow (sp : SpaceType S) (joins : ℕ → ℕ) (throws : S → Bool) (root space : S) : Prop :=
  ∀ s i, (system sp joins throws root).Reachable (fun _ _ => True) s → i < s.count →
    (s.task i).ctl = .entering space → (s.task i).frames = [] →
    ∃ t, (system sp joins throws root).Reachable (fun _ _ => True) t ∧
      (t.orphans ≠ [] ∨ ¬sp.canSplit space ∧
        t.task i = { s.task i with ctl := .notifying, except := true } ∧ Alongside s t i)

/-- Another worker runs the awaited task. -/
theorem exists_orphan_of_worker {root o : S} {d : ℕ} {tasks : List ℕ}
    (h : EndsByThrow sp joins throws root o)
    (hr : (system sp joins throws root).Reachable (fun _ _ => True) s) (hi : i < s.count)
    (hjoining : (s.task i).ctl = .joining (d :: tasks)) (hmem : d ∈ (s.task i).frames.flatten)
    (hdlt : d < s.count) (hd : s.task d = .new o) (hdi : d ≠ i) :
    ∃ t, (system sp joins throws root).Reachable (fun _ _ => True) t ∧ t.orphans ≠ [] := by
  have htake : step sp joins throws s (.take d none) = some (s.start d none o) := by
    simp [step, take, hd, Task.new]
  have hentering : ((s.start d none o).task d).ctl = .entering o := by simp [State.start]
  have hnone : ((s.start d none o).task d).frames = [] := by simp [State.start, hd, Task.new]
  obtain ⟨u, hru, hu | ⟨-, hu, halong⟩⟩ :=
    h _ d (hr.step (a := Label.take d none) trivial htake) hdlt hentering hnone
  · exact ⟨u, hru, hu⟩
  · have hui : u.task i = s.task i := by
      rw [halong.others i hi hdi.symm, State.start, State.set_of_ne _ hdi.symm]
    exact exists_orphan_of_awaited hru (by rw [hui, hjoining]) (hui ▸ hmem) (by rw [hu]) (by rw [hu])

/-- The thread of the waiting task runs another task than the awaited one. -/
theorem exists_orphan_of_host {root o oc : S} {c d : ℕ} {tasks : List ℕ}
    (h : EndsByThrow sp joins throws root o)
    (hr : (system sp joins throws root).Reachable (fun _ _ => True) s) (hi : i < s.count)
    (hjoining : (s.task i).ctl = .joining (c :: tasks)) (hmem : c ∈ (s.task i).frames.flatten)
    (hclt : c < s.count) (hc : s.task c = .new oc) (hdlt : d < s.count) (hd : s.task d = .new o)
    (hdc : d ≠ c) (hdi : d ≠ i) (hci : c ≠ i) :
    ∃ t, (system sp joins throws root).Reachable (fun _ _ => True) t ∧ t.orphans ≠ [] := by
  obtain ⟨v, hrv, hcount, hvi, hvc, hvd⟩ := exists_hosting hr hjoining hc hd hdc hdi hci
  have hentering : (v.task d).ctl = .entering o := by rw [hvd]
  have hnone : (v.task d).frames = [] := by
    rw [hvd]
    rfl
  obtain ⟨u, hru, hu | ⟨-, hu, halong⟩⟩ := h v d hrv (by omega) hentering hnone
  · exact ⟨u, hru, hu⟩
  · have hui : u.task i = { s.task i with ctl := .hosting c tasks } := by
      rw [halong.others i (by omega) hdi.symm, hvi]
    have hframe : c ∈ (u.task i).frames.flatten := by
      rw [hui]
      exact hmem
    have hqueued : (u.task c).ctl = .queued oc := by
      rw [halong.others c (by omega) hdc.symm, hvc]
      rfl
    exact exists_orphan_of_hosted hru (by rw [hui]) hframe hqueued
      (show (u.task d).ctl = .notifying by rw [hu]) (by rw [hu]) (by rw [hu, hvd])

/-- It is so of every space with a throwing leaf. -/
theorem endsByThrow_of_leaf {root leaf : S} (harity : sp.arity ≠ 1) (ht : throws leaf)
    (hleaf : Leaf sp space leaf) : EndsByThrow sp joins throws root space := by
  obtain ⟨depth, hdepth⟩ := sp.finite
  induction hn : depth space using Nat.strongRecOn generalizing space with
  | ind n ih =>
    intro s i hr hi hctl hnone
    obtain ⟨t, x, frames, hrt, hdescent⟩ := exists_descent harity hdepth hr hi hctl
    have htask := hdescent.task
    have hcount := hdescent.alongside.count
    rw [hnone, List.append_nil] at htask
    cases frames with
    | nil =>
      have hsplit : ¬sp.canSplit space := fun hs => hdescent.split hs rfl
      have hx : leaf = x := by
        rcases hdescent.leaf leaf hleaf with heq | ⟨d, hd, -⟩
        · exact heq
        · cases hd
      obtain ⟨u, hru, hu, halong⟩ := exists_stored hrt htask (hx ▸ ht)
      refine ⟨u, hru, .inr ⟨hsplit, ?_, hdescent.alongside.trans halong (.inl rfl)⟩⟩
      simp [hu, hnone]
    | cons top rest =>
      obtain ⟨c, tasks, rfl⟩ := List.exists_cons_of_ne_nil
        (hdescent.nonempty top List.mem_cons_self)
      have hmem : c ∈ (t.task i).frames.flatten := by simp [htask]
      obtain ⟨hcge, hclt, oc, hc⟩ := hdescent.queued c (by simp)
      by_cases hx : throws x
      · have hthrow : step sp joins throws t (.throw i) = some (t.unwind i) := by
          simp [step, htask, hx]
        refine ⟨_, hrt.step (a := Label.throw i) trivial hthrow, .inl (unwind_orphans hmem ?_)⟩
        simp [Task.isUnfinished, hc, Task.new]
      · -- the first leaf returns, and the one that throws is below a task that has been spawned
        obtain ⟨d, hd, o, ho, hlt, hlo⟩ := (hdescent.leaf leaf hleaf).resolve_left (by
          intro heq
          exact hx (heq ▸ ht))
        obtain ⟨hdge, hdlt, -⟩ := hdescent.queued d hd
        have hret : step sp joins throws t (.move i) =
            some (t.goto i (.joining (c :: tasks))) := by
          simp [step, move, htask, State.ret, State.goto]
        have hr₁ := hrt.step (a := Label.move i) trivial hret
        have hdi : d ≠ i := by omega
        have hci : c ≠ i := by omega
        have hchild := ih _ (hn ▸ hlt) hlo rfl
        have hjoining : ((t.goto i (.joining (c :: tasks))).task i).ctl = .joining (c :: tasks) := by
          simp [State.goto]
        have hframe : c ∈ ((t.goto i (.joining (c :: tasks))).task i).frames.flatten := by
          simpa [State.goto] using hmem
        have hkept : ∀ e, e ≠ i → (t.goto i (.joining (c :: tasks))).task e = t.task e :=
          fun e he => State.set_of_ne _ he _
        have hlti : i < t.count := by omega
        have horphan : ∃ u, (system sp joins throws root).Reachable (fun _ _ => True) u ∧
            u.orphans ≠ [] := by
          by_cases hdc : d = c
          · subst hdc
            exact exists_orphan_of_worker hchild hr₁ hlti hjoining hframe hdlt
              ((hkept d hdi).trans ho) hdi
          · exact exists_orphan_of_host hchild hr₁ hlti hjoining hframe hclt
              ((hkept c hci).trans hc) hdlt ((hkept d hdi).trans ho) hdc hdi hci
        obtain ⟨u, hru, hu⟩ := horphan
        exact ⟨u, hru, .inl hu⟩

/-! ### When all calls join their tasks -/

/-- Nothing is spawned or nothing is thrown. -/
def Quiet (sp : SpaceType S) (throws : S → Bool) (space : S) : Prop :=
  sp.arity = 1 ∨ ¬sp.canSplit space ∨ ∀ leaf, Leaf sp space leaf → ¬throws leaf

theorem orphans_of_quiet (h : Quiet sp throws space)
    (hr : (system sp joins throws space).Reachable (fun _ _ => True) s) : s.orphans = [] := by
  rcases h with harity | hsplit | hquiet
  · exact (alone_reachable (.inr harity) hr).orphans
  · exact (alone_reachable (.inl hsplit) hr).orphans
  · exact (calm_reachable hquiet hr).orphans

theorem exists_orphan (h : ¬Quiet sp throws space) :
    ∃ s, (system sp joins throws space).Reachable (fun _ _ => True) s ∧ s.orphans ≠ [] := by
  simp only [Quiet, not_or, not_not, not_forall] at h
  obtain ⟨harity, hsplit, leaf, hleaf, ht⟩ := h
  have hctl : ((system sp joins throws space).initial.task 0).ctl = .entering space := rfl
  obtain ⟨s, hr, hs | ⟨hnot, -⟩⟩ :=
    endsByThrow_of_leaf harity ht hleaf _ 0 .initial Nat.zero_lt_one hctl rfl
  · exact ⟨s, hr, hs⟩
  · exact absurd hsplit hnot

theorem orphans_iff_quiet :
    (∀ s, (system sp joins throws space).Reachable (fun _ _ => True) s → s.orphans = []) ↔
      Quiet sp throws space := by
  constructor
  · intro hall
    by_contra hnot
    obtain ⟨s, hr, hs⟩ := exists_orphan hnot
    exact hs (hall s hr)
  · intro h s hr
    exact orphans_of_quiet h hr

/-- In every schedule all calls exit after the tasks they have spawned, iff the space is not
split into tasks or `func` throws on none of its leaves. -/
theorem exits_after_tasks_iff (sp : SpaceType S) (throws : S → Bool) (space : S) :
    ((∀ s, (parallelFor sp throws space).Reachable (fun _ _ => True) s → s.orphans = []) ↔
      Quiet sp throws space) ∧
    ((∀ s, (parallelReduce sp throws space).Reachable (fun _ _ => True) s → s.orphans = []) ↔
      Quiet sp throws space) :=
  ⟨orphans_iff_quiet, orphans_iff_quiet⟩

/-- `space_1D` -/
def space1D {B : Size} (hB : 0 < B) : SpaceType (Space1D B) where
  arity := 2
  canSplit := Space1D.canSplit
  split := fun s => (s.left, [s.right])
  length_split := fun _ _ => rfl
  finite := by
    refine ⟨Space1D.length, ?_⟩
    intro s hs
    obtain ⟨hleft, hright⟩ := Space1D.length_lt hB hs
    exact ⟨hleft, fun o ho => List.mem_singleton.mp ho ▸ hright⟩

/-- `func` throws in the nested call, before the task of the right half is taken. -/
def nestedRun : List Label := [.move 0, .move 0, .move 0, .move 0, .throw 0]

/-- `func` throws in the task, and its exception reaches the wait before `notify` is called. -/
def waitRun : List Label :=
  [.move 0, .move 0, .move 0, .move 0, .take 1 none, .move 1, .throw 1, .move 1, .move 0, .move 0]

theorem exits_before_task : let sp := space1D (show (0 : Size) < 1 by decide)
    let leftThrows := fun space : Space1D 1 => space == .new 0 1
    let rightThrows := fun space : Space1D 1 => space == .new 1 2
    let first := (parallelFor sp leftThrows (.new 0 2)).final nestedRun
    let second := (parallelReduce sp leftThrows (.new 0 2)).final nestedRun
    let third := (parallelFor sp rightThrows (.new 0 2)).final waitRun
    let fourth := (parallelReduce sp rightThrows (.new 0 2)).final waitRun
    (first.orphans = [1] ∧ (first.task 1).ctl = .queued (.new 1 2)) ∧
    (second.orphans = [1] ∧ (second.task 1).ctl = .queued (.new 1 2)) ∧
    (third.orphans = [1] ∧ (third.task 1).ctl = .notifying) ∧
    (fourth.orphans = [1] ∧ (fourth.task 1).ctl = .notifying) := by
  decide

end PFunc.LoopExits
