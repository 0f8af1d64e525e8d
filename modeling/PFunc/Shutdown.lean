import PFunc.Continuations
import PFunc.Priorities

/-!
# Shutdown

The destructor of the task manager cancels the workers, joins them and deletes the queues.
`get_task` tests `thread_state` before each round of the queues and again on its way out, so a
cancelled worker leaves its work loop as soon as it looks for a task there. A task that it has
taken it still runs, and inside a task it goes on as before.
-/

namespace PFunc.Shutdown

open LabelledRuns Atomics Event QueueSet TaskManager Finset

variable {π : Type}

/-- How far a worker has come on its way out of the work loop. -/
inductive Exit where
  | working
  /-- the inner loop of `get_task` has found the worker cancelled -/
  | broken
  | exited
  deriving DecidableEq

/-- Where the main thread is. -/
inductive Phase where
  | program
  | cancelling (i : ℕ)
  | joining (i : ℕ)
  | deleted
  deriving DecidableEq

structure State (π : Type) where
  base : TaskManager.State π
  threadState : ℕ → Bool
  exit : ℕ → Exit
  phase : Phase

inductive Act (π : Type) where
  /-- a step of the task manager; its tests of `thread_state` are false -/
  | run (l : Label π)
  /-- a worker tests `thread_state` and finds itself cancelled -/
  | leave (t : ℕ)
  /-- the main program calls the destructor -/
  | destroy
  /-- the next step of the destructor -/
  | next
  deriving DecidableEq

/-- The test of `thread_state [my_thread_id]` that a worker is at. A worker with a task in hand
tests it too, but goes on whatever the answer. -/
def workTest : Ctl π → Option Site
  | .seeking .work _ (.test site _) => some site
  | _ => none

def isFunctor : Ctl π → Bool
  | .functor => true
  | _ => false

variable (cfg : Config π)

/-- The thread may take a step of the task manager. -/
def State.mayRun (s : State π) (t : ℕ) : Bool :=
  if t = cfg.numThreads then s.phase = .program
  else s.exit t = .working && !(s.threadState t && (workTest (s.base.thread t).ctl).isSome)

/-- `thread_state [t]` is true. Nobody resets it, so the second test of a worker whose inner loop
has broken is true as well. -/
def leave (s : State π) (t : ℕ) : Option (State π) :=
  match s.exit t, workTest (s.base.thread t).ctl with
  | .working, some .loop => some { s with exit := Function.update s.exit t .broken }
  | .working, some .exit => some { s with exit := Function.update s.exit t .exited }
  | .broken, _ => some { s with exit := Function.update s.exit t .exited }
  | _, _ => none

/-- `~taskmgr`; `join_thread` waits for the worker. -/
def next (s : State π) : Option (State π) :=
  match s.phase with
  | .cancelling i =>
    if i < cfg.numThreads then
      some { s with threadState := Function.update s.threadState i true, phase := .cancelling (i + 1) }
    else some { s with phase := .joining 0 }
  | .joining i =>
    if i < cfg.numThreads then
      if s.exit i = .exited then some { s with phase := .joining (i + 1) } else none
    else some { s with phase := .deleted }
  | _ => none

def step (s : State π) : Act π → Option (State π)
  | .run l =>
    if s.mayRun cfg l.thread then (TaskManager.step cfg s.base l).map fun b => { s with base := b }
    else none
  | .leave t => if t < cfg.numThreads ∧ s.threadState t then leave s t else none
  | .destroy =>
    if s.phase = .program ∧ isFunctor (s.base.thread cfg.numThreads).ctl then
      some { s with phase := .cancelling 0 }
    else none
  | .next => next cfg s

def initial : State π := ⟨TaskManager.initial cfg, fun _ => false, fun _ => .working, .program⟩

def system : System (State π) (Act π) where
  initial := initial cfg
  step := step cfg

/-- The steps of the task manager meet the discipline `D`. -/
def Meets (D : TaskManager.State π → Label π → Prop) (s : State π) : Act π → Prop
  | .run l => D s.base l
  | _ => True

instance (D : TaskManager.State π → Label π → Prop) [∀ s l, Decidable (D s l)] (s : State π) :
    (a : Act π) → Decidable (Meets D s a)
  | .run l => inferInstanceAs (Decidable (D s.base l))
  | .leave _ => .isTrue trivial
  | .destroy => .isTrue trivial
  | .next => .isTrue trivial

/-- What each step does. -/
inductive Effect (s : State π) : Act π → State π → Prop
  | run (l : Label π) (b : TaskManager.State π) (hmay : s.mayRun cfg l.thread)
      (hstep : TaskManager.step cfg s.base l = some b) : Effect s (.run l) { s with base := b }
  | broken (t : ℕ) (ht : t < cfg.numThreads) (hstate : s.threadState t)
      (hexit : s.exit t = .working) (hc : workTest (s.base.thread t).ctl = some .loop) :
      Effect s (.leave t) { s with exit := Function.update s.exit t .broken }
  | exited (t : ℕ) (ht : t < cfg.numThreads) (hstate : s.threadState t)
      (hcase : s.exit t = .broken ∨
        s.exit t = .working ∧ workTest (s.base.thread t).ctl = some .exit) :
      Effect s (.leave t) { s with exit := Function.update s.exit t .exited }
  | destroy (hphase : s.phase = .program)
      (hc : (s.base.thread cfg.numThreads).ctl = .functor) :
      Effect s .destroy { s with phase := .cancelling 0 }
  | cancel (i : ℕ) (hphase : s.phase = .cancelling i) (hi : i < cfg.numThreads) :
      Effect s .next
        { s with threadState := Function.update s.threadState i true, phase := .cancelling (i + 1) }
  | cancelled (i : ℕ) (hphase : s.phase = .cancelling i) (hi : cfg.numThreads ≤ i) :
      Effect s .next { s with phase := .joining 0 }
  | join (i : ℕ) (hphase : s.phase = .joining i) (hi : i < cfg.numThreads)
      (hexit : s.exit i = .exited) : Effect s .next { s with phase := .joining (i + 1) }
  | joined (i : ℕ) (hphase : s.phase = .joining i) (hi : cfg.numThreads ≤ i) :
      Effect s .next { s with phase := .deleted }

variable {cfg} {s s' : State π} {a : Act π} {D : TaskManager.State π → Label π → Prop}

theorem isFunctor_iff {c : Ctl π} : isFunctor c ↔ c = .functor := by
  cases c <;> simp [isFunctor]

theorem step_effect (h : step cfg s a = some s') : Effect cfg s a s' := by
  cases a with
  | run l =>
    simp only [step] at h
    split at h
    next hmay =>
      obtain ⟨b, hb, rfl⟩ := Option.map_eq_some_iff.mp h
      exact .run l b hmay hb
    next => cases h
  | leave t =>
    simp only [step] at h
    split at h
    next hcase =>
      obtain ⟨ht, hstate⟩ := hcase
      unfold leave at h
      split at h
      next hexit hc =>
        cases h
        exact .broken t ht hstate hexit hc
      next hexit hc =>
        cases h
        exact .exited t ht hstate (.inr ⟨hexit, hc⟩)
      next hexit =>
        cases h
        exact .exited t ht hstate (.inl hexit)
      next => cases h
    next => cases h
  | destroy =>
    simp only [step] at h
    split at h
    next hcase =>
      cases h
      exact .destroy hcase.1 (isFunctor_iff.mp hcase.2)
    next => cases h
  | next =>
    simp only [step, next] at h
    split at h
    next i hphase =>
      split at h
      next hi =>
        cases h
        exact .cancel i hphase hi
      next hi =>
        cases h
        exact .cancelled i hphase (Nat.le_of_not_lt hi)
    next i hphase =>
      split at h
      next hi =>
        split at h
        next hexit =>
          cases h
          exact .join i hphase hi hexit
        next => cases h
      next hi =>
        cases h
        exact .joined i hphase (Nat.le_of_not_lt hi)
    next => cases h

/-! ### The task manager under shutdown -/

/-- Whatever the destructor does, the task manager is in a state of a run without it. -/
theorem base_reachable (hr : (system cfg).Reachable (Meets D) s) :
    (TaskManager.system cfg).Reachable D s.base := by
  refine hr.invariant (I := fun s => (TaskManager.system cfg).Reachable D s.base) .initial ?_
  intro s a s' hs hd hstep
  cases step_effect hstep with
  | run l b hmay hb => exact hs.step hd hb
  | _ => exact hs

/-- The workers cancelled so far are those below this one. -/
def Phase.cancelled (n : ℕ) : Phase → ℕ
  | .program => 0
  | .cancelling i => i
  | _ => n

/-- The workers joined so far are those below this one. -/
def Phase.joined (n : ℕ) : Phase → ℕ
  | .joining i => i
  | .deleted => n
  | _ => 0

/-- Workers leave after their cancel, and are joined after they have left. -/
structure State.Orderly (cfg : Config π) (s : State π) : Prop where
  bounded : s.phase.cancelled cfg.numThreads ≤ cfg.numThreads
  cancelled : ∀ t < cfg.numThreads, s.threadState t ↔ t < s.phase.cancelled cfg.numThreads
  joined : ∀ t < s.phase.joined cfg.numThreads, s.exit t = .exited
  left : ∀ t, s.exit t ≠ .working →
    t < cfg.numThreads ∧ s.threadState t ∧ (workTest (s.base.thread t).ctl).isSome
  main : s.phase ≠ .program → (s.base.thread cfg.numThreads).ctl = .functor

theorem State.Orderly.leave (h : s.Orderly cfg) {t : ℕ} {e : Exit} (ht : t < cfg.numThreads)
    (hstate : s.threadState t) (hc : (workTest (s.base.thread t).ctl).isSome)
    (hexit : s.exit t ≠ .exited) :
    State.Orderly cfg { s with exit := Function.update s.exit t e } where
  bounded := h.bounded
  cancelled := h.cancelled
  main := h.main
  joined := by
    intro t' ht'
    have hne : t' ≠ t := by
      rintro rfl
      exact hexit (h.joined t' ht')
    simpa [Function.update_of_ne hne] using h.joined t' ht'
  left := by
    intro t' ht'
    by_cases hne : t' = t
    · subst hne
      exact ⟨ht, hstate, hc⟩
    · exact h.left t' (by simpa [Function.update_of_ne hne] using ht')

theorem mayRun_main (hmay : s.mayRun cfg cfg.numThreads) : s.phase = .program := by
  simpa [State.mayRun] using hmay

theorem mayRun_worker {t : ℕ} (ht : t ≠ cfg.numThreads) (hmay : s.mayRun cfg t) :
    s.exit t = .working ∧ (s.threadState t → workTest (s.base.thread t).ctl = none) := by
  simp only [State.mayRun, ht, if_false, Bool.and_eq_true, decide_eq_true_eq,
    Bool.not_eq_true', Bool.and_eq_false_iff, Option.isSome_eq_false_iff,
    Option.isNone_iff_eq_none] at hmay
  refine ⟨hmay.1, fun hstate => hmay.2.resolve_left ?_⟩
  simp [hstate]

theorem State.Orderly.step (h : s.Orderly cfg) (he : Effect cfg s a s') : s'.Orderly cfg := by
  cases he with
  | run l b hmay hb =>
    obtain ⟨hl, he⟩ := TaskManager.step_effect hb
    refine ⟨h.bounded, h.cancelled, h.joined, ?_, ?_⟩
    · intro t ht
      obtain ⟨hlt, hstate, hc⟩ := h.left t ht
      have hne : t ≠ l.thread := by
        rintro rfl
        exact ht (mayRun_worker hlt.ne hmay).1
      exact ⟨hlt, hstate, by rw [he.other hne]; exact hc⟩
    · intro hphase
      have hne : cfg.numThreads ≠ l.thread := by
        intro heq
        rw [← heq] at hmay
        exact hphase (mayRun_main (s := s) hmay)
      rw [he.other hne]
      exact h.main hphase
  | broken t ht hstate hexit hc => exact h.leave ht hstate (by simp [hc]) (by simp [hexit])
  | exited t ht hstate hcase =>
    rcases hcase with hexit | ⟨hexit, hc⟩
    · exact h.leave ht hstate (h.left t (by simp [hexit])).2.2 (by simp [hexit])
    · exact h.leave ht hstate (by simp [hc]) (by simp [hexit])
  | destroy hphase hc =>
    have hcancelled := h.cancelled
    simp only [hphase, Phase.cancelled] at hcancelled
    exact ⟨Nat.zero_le _, hcancelled, fun t ht => absurd ht (Nat.not_lt_zero t), h.left, fun _ => hc⟩
  | cancel i hphase hi =>
    have hcancelled := h.cancelled
    simp only [hphase, Phase.cancelled] at hcancelled
    refine ⟨hi, ?_, fun t ht => absurd ht (Nat.not_lt_zero t), ?_,
      fun _ => h.main (by simp [hphase])⟩
    · intro t ht
      by_cases hti : t = i
      · subst hti
        simp [Phase.cancelled]
      · simp only [Function.update_of_ne hti, hcancelled t ht, Phase.cancelled]
        omega
    · intro t ht
      obtain ⟨hlt, hstate, hc⟩ := h.left t ht
      refine ⟨hlt, ?_, hc⟩
      by_cases hti : t = i
      · subst hti
        simp
      · simpa [Function.update_of_ne hti] using hstate
  | cancelled i hphase hi =>
    have hcancelled := h.cancelled
    simp only [hphase, Phase.cancelled] at hcancelled
    refine ⟨le_rfl, ?_, fun t ht => absurd ht (Nat.not_lt_zero t), h.left,
      fun _ => h.main (by simp [hphase])⟩
    intro t ht
    simp only [hcancelled t ht, Phase.cancelled]
    omega
  | join i hphase hi hexit =>
    have hjoined := h.joined
    have hcancelled := h.cancelled
    simp only [hphase, Phase.joined, Phase.cancelled] at hjoined hcancelled
    refine ⟨le_rfl, hcancelled, ?_, h.left, fun _ => h.main (by simp [hphase])⟩
    intro t ht
    rcases Nat.lt_or_eq_of_le (Nat.le_of_lt_succ ht) with hlt | rfl
    · exact hjoined t hlt
    · exact hexit
  | joined i hphase hi =>
    have hjoined := h.joined
    have hcancelled := h.cancelled
    simp only [hphase, Phase.joined, Phase.cancelled] at hjoined hcancelled
    exact ⟨le_rfl, hcancelled, fun t ht => hjoined t (ht.trans_le hi), h.left,
      fun _ => h.main (by simp [hphase])⟩

theorem orderly_reachable (hr : (system cfg).Reachable (Meets D) s) : s.Orderly cfg := by
  refine hr.invariant (I := fun s => s.Orderly cfg) ?_ fun s a s' hs _ hstep =>
    hs.step (step_effect hstep)
  exact ⟨Nat.zero_le _, fun t _ => by simp [system, initial, Phase.cancelled],
    fun t ht => absurd ht (Nat.not_lt_zero t),
    fun t ht => absurd rfl ht, fun h => absurd rfl h⟩

/-- A worker in its work loop runs no task. -/
theorem idle_of_workTest (hr : (TaskManager.system cfg).Reachable (Respawn cfg) s.base) {t : ℕ}
    (ht : t ≤ cfg.numThreads) (hc : (workTest (s.base.thread t).ctl).isSome) :
    (s.base.thread t).stack = [] := by
  have hpoint := (callStack_reachable hr t ht).point
  unfold workTest at hc
  split at hc
  next n site pc hctl =>
    have hnone := hpoint .work (by rw [hctl]; rfl)
    have hnil : (s.base.thread t).frames = [] := by
      cases hf : (s.base.thread t).frames with
      | nil => rfl
      | cons f fs => simp [hf, Point.current?] at hnone
    simp [Thread.stack, hctl, Ctl.hand, hnil]
  next => cases hc

/-- What is left when the task manager is gone. -/
structure State.Over (cfg : Config π) (s : State π) : Prop where
  /-- nobody has a task in hand or on its stack -/
  idle : ∀ t ≤ cfg.numThreads, (s.base.thread t).stack = []
  /-- every task that was taken has run and has been notified -/
  finished : ∀ h, s.base.hist.entries h .taken = s.base.hist.entries h .complete
  queued : ∀ h, s.base.hist.entries h .queued =
    s.base.hist.entries h .complete + ∑ q ∈ range cfg.numQueues, (s.base.queue q).count h
  /-- the event, nested or not, of a task left in a queue is incomplete -/
  lost : ∀ q, ∀ h ∈ s.base.queue q, (s.base.task h).completion.eventState = activeIncomplete
  still : ∀ a, step cfg s a = none

/-- A thread with an empty stack is at no stage of any task. -/
theorem occupancy_of_idle {b : TaskManager.State π}
    (hidle : ∀ t ≤ cfg.numThreads, (b.thread t).stack = []) (x : Handle) {st : Stage}
    (hst : st = .taken ∨ st = .running ∨ st = .returned) : b.occupancy cfg x st = 0 := by
  have hcount : ∀ t ∈ range (cfg.numThreads + 1), (b.thread t).count x st = 0 := by
    intro t ht
    have hnone : (b.thread t).held x = 0 := by
      rw [Thread.held_eq, hidle t (Nat.lt_succ_iff.mp (mem_range.mp ht))]
      rfl
    unfold Thread.held at hnone
    rcases hst with rfl | rfl | rfl <;> omega
  rw [State.occupancy, sum_eq_zero hcount]
  rcases hst with rfl | rfl | rfl <;> rfl

/-- What was taken is complete when no thread is at work. -/
theorem finished_of_idle {b : TaskManager.State π} (hflow : b.Flow cfg)
    (hidle : ∀ t ≤ cfg.numThreads, (b.thread t).stack = []) (x : Handle) :
    b.hist.entries x .taken = b.hist.entries x .complete := by
  have htaken := hflow x .taken .running rfl
  have hrunning := hflow x .running .returned rfl
  have hreturned := hflow x .returned .complete rfl
  rw [occupancy_of_idle hidle x (by simp)] at htaken hrunning hreturned
  omega

/-- After the destructor nobody is left who could take a step. -/
theorem State.Orderly.still (h : s.Orderly cfg) (hphase : s.phase = .deleted) (a : Act π) :
    Shutdown.step cfg s a = none := by
  have hexited : ∀ t < cfg.numThreads, s.exit t = .exited :=
    fun t ht => h.joined t (by simpa [hphase, Phase.joined] using ht)
  by_contra hsome
  obtain ⟨s', hstep⟩ := Option.ne_none_iff_exists'.mp hsome
  cases step_effect hstep with
  | run l b hmay hb =>
    obtain ⟨hl, -⟩ := TaskManager.step_effect hb
    rcases Nat.lt_or_eq_of_le hl with hlt | heq
    · have := (mayRun_worker hlt.ne hmay).1
      simp [hexited _ hlt] at this
    · rw [heq] at hmay
      have := mayRun_main hmay
      simp [hphase] at this
  | broken t ht hstate hexit => simp [hexited t ht] at hexit
  | exited t ht hstate hcase => simp [hexited t ht] at hcase
  | destroy hp => simp [hphase] at hp
  | cancel i hp => simp [hphase] at hp
  | cancelled i hp => simp [hphase] at hp
  | join i hp => simp [hphase] at hp
  | joined i hp => simp [hphase] at hp

/-- When the destructor has joined the workers every task that was taken is complete, the others
are still queued, and nothing runs any more. -/
theorem deleted_over (hr : (system cfg).Reachable (Meets (Respawn cfg)) s)
    (hphase : s.phase = .deleted) : s.Over cfg := by
  have h := orderly_reachable hr
  have hbase := base_reachable hr
  have hflow := (flow_reachable hbase).1
  have hstack := callStack_reachable hbase cfg.numThreads le_rfl
  have hidle : ∀ t ≤ cfg.numThreads, (s.base.thread t).stack = [] := by
    intro t ht
    rcases Nat.lt_or_eq_of_le ht with hlt | rfl
    · have hexited : s.exit t = .exited := h.joined t (by simpa [hphase, Phase.joined] using hlt)
      exact idle_of_workTest hbase ht (h.left t (by simp [hexited])).2.2
    · have hmain := h.main (by simp [hphase])
      simp [Thread.stack, hmain, Ctl.hand, (hstack.main rfl).1]
  refine ⟨hidle, finished_of_idle hflow hidle, ?_, ?_, h.still hphase⟩
  · intro x
    have hheld : ∑ t ∈ range cfg.numThreads, (s.base.thread t).held x = 0 := by
      refine sum_eq_zero fun t ht => ?_
      rw [Thread.held_eq, hidle t (mem_range.mp ht).le]
      rfl
    have hplaces := places_eq hflow hstack x
    rwa [State.places, hheld] at hplaces
  · intro q x hx
    have hactive : s.base.toStacks.Active x := .inl ⟨q, hx⟩
    have hlt := (active_iff hbase x).mp hactive
    have hstages := hflow.stages x
    exact completion_incomplete hbase x (by omega)

/-- The main program spawns a task and does not wait for it. -/
def lostRun : List (Act ℕ) :=
  [.run ⟨2, .spawn 7 (.new 0 true false) 0⟩, .run ⟨2, .tick 0⟩, .destroy, .next, .next, .next,
    .leave 0, .leave 0, .leave 1, .leave 1, .next, .next, .next]

theorem deleted_over_lostRun :
    ((system (.small .cilkS [1, 1])).final lostRun).base.queue 0 = [7] ∧
      ((system (.small .cilkS [1, 1])).final lostRun).Over (.small .cilkS [1, 1]) :=
  ⟨by decide, deleted_over (System.reachable_final (by decide)) (by decide)⟩

/-! ### Leaving the work loop -/

/-- The worker takes a task in its work loop. -/
def takesWork (t : ℕ) (s : State π) (_ : Act π) (s' : State π) : Bool :=
  match (s.base.thread t).ctl, (s'.base.thread t).ctl with
  | .seeking .work _ _, .took .work _ _ => true
  | _, _ => false

/-- A step that the worker takes. -/
def own (t : ℕ) (_ : State π) (a : Act π) (_ : State π) : Bool :=
  match a with
  | .run l => l.thread == t
  | .leave t' => t' == t
  | _ => false

/-- The worker is about to visit a queue for a task of its work loop. -/
def visiting : Ctl π → ℕ
  | .seeking .work _ (.visit _) => 1
  | _ => 0

@[simp] theorem setThread_self (b : TaskManager.State π) (t : ℕ) (th : Thread π) :
    (b.setThread t th).thread t = th := Function.update_self _ _ _

@[simp] theorem goto_self (b : TaskManager.State π) (t : ℕ) (c : Ctl π) :
    ((b.goto t c).thread t).ctl = c := by
  simp [TaskManager.State.goto]

theorem of_visiting {c : Ctl π} (h : visiting c ≠ 0) : ∃ n k, c = .seeking .work n (.visit k) := by
  unfold visiting at h
  split at h
  next n k => exact ⟨n, k, rfl⟩
  next => exact absurd rfl h

/-- A worker reaches the queues in its work loop from that loop only. -/
theorem seeking_of_visiting {b b' : TaskManager.State π} {l : Label π}
    (he : TaskManager.Effect cfg b l b') (hc : visiting (b'.thread l.thread).ctl ≠ 0) :
    ∃ n sk, (b.thread l.thread).ctl = .seeking .work n sk := by
  obtain ⟨n, k, hc⟩ := of_visiting hc
  have hgoto : ∀ c, c.token = (b.thread l.thread).ctl.token →
      PointMove (b.thread l.thread) c → c = .seeking .work n (.visit k) →
      ∃ n sk, (b.thread l.thread).ctl = .seeking .work n sk := by
    rintro c htoken hpoint rfl
    cases hpoint with
    | same hp _ =>
      cases hctl : (b.thread l.thread).ctl <;> rw [hctl] at hp htoken <;>
        simp_all [Ctl.point, Ctl.token]
    | left hp => cases hp
    | spin _ _ _ hp => cases hp
  cases he with
  | stay => exact ⟨n, _, hc⟩
  | goto c htoken _ _ _ hpoint => exact hgoto c htoken hpoint (by simpa using hc)
  | test _ _ c _ _ htoken _ _ hpoint => exact hgoto c htoken hpoint (by simpa using hc)
  | wait _ c _ _ _ hcase =>
    have hctl : c = .seeking .work n (.visit k) := by simpa using hc
    rcases hcase with ⟨-, rfl⟩ | ⟨-, rfl⟩ <;> cases hctl
  | arrive _ _ c _ _ _ hcase =>
    have hctl : c = .seeking .work n (.visit k) := by simpa using hc
    rcases hcase with rfl | ⟨_, rfl⟩ <;> cases hctl
  | take p => cases p <;> simp [TaskManager.State.take, found] at hc
  | notify f =>
    cases hf : f.point <;>
      simp [TaskManager.State.notify, TaskManager.State.enter, hf, resume, getTask] at hc
  | leave => simp at hc
  | spawn => simp [TaskManager.State.spawn, TaskManager.State.enter] at hc
  | ret => simp [TaskManager.State.ret, TaskManager.State.enter] at hc
  | put => simp [TaskManager.State.put] at hc
  | start => simp [TaskManager.State.start, TaskManager.State.enter] at hc

/-- What a worker does that visits the queues for a task of its work loop. -/
theorem visit_step {b b' : TaskManager.State π} {l : Label π} {n : Word} {k : ℕ}
    (hc : (b.thread l.thread).ctl = .seeking .work n (.visit k))
    (hb : TaskManager.step cfg b l = some b') :
    (b'.thread l.thread).ctl = .seeking .work n (.visit (k + 1)) ∧ k < cfg.numQueues ∨
      (∃ h, (b'.thread l.thread).ctl = .took .work h .incomplete) ∨
      (b'.thread l.thread).ctl = .seeking .work n (.test .loop .incomplete) := by
  simp only [TaskManager.step] at hb
  split at hb
  next hl =>
    split at hb
    next top hact =>
      simp only [tick, hc, seek] at hb
      split at hb
      next hk =>
        split at hb
        next htop =>
          split at hb
          next r hget =>
            cases hb
            exact .inr (.inl ⟨r.1, by simp [TaskManager.State.take, found]⟩)
          next hget =>
            cases hb
            exact .inl ⟨by simp, hk⟩
        next => cases hb
      next hk =>
        cases hb
        exact .inr (.inr (by simp [missed]))
    next => simp [hc] at hb
  next => cases hb

theorem takesWork_same {t : ℕ} (h : s'.base.thread t = s.base.thread t) :
    takesWork t s a s' = false := by
  unfold takesWork
  rw [h]
  split
  next h₁ h₂ =>
    rw [h₁] at h₂
    cases h₂
  next => rfl

theorem visiting_of_seeking {c : Ctl π} {n : Word} {sk : Seek} (hc : c = .seeking .work n sk)
    (hw : workTest c = none) : visiting c = 1 := by
  subst hc
  cases sk with
  | test => cases hw
  | visit => rfl

/-- After its cancel a worker takes at most one more task in its work loop. -/
theorem one_more_task (hr : (system cfg).Reachable (Meets D) s) {t : ℕ} (ht : t < cfg.numThreads)
    (hstate : s.threadState t) {as : List (Act π)} (hrun : (system cfg).run s as = some s') :
    (system cfg).count (takesWork t) s as ≤ 1 := by
  have hkeep : ∀ s a s', s.Orderly cfg ∧ s.threadState t → True → step cfg s a = some s' →
      (s'.Orderly cfg ∧ s'.threadState t) ∧
        (if takesWork t s a s' then 1 else 0) + visiting (s'.base.thread t).ctl ≤
          visiting (s.base.thread t).ctl := by
    intro s a s' ⟨h, hstate⟩ _ hstep
    have he := step_effect hstep
    have hquiet : s'.base.thread t = s.base.thread t → s'.threadState t →
        (s'.Orderly cfg ∧ s'.threadState t) ∧
          (if takesWork t s a s' then 1 else 0) + visiting (s'.base.thread t).ctl ≤
            visiting (s.base.thread t).ctl := by
      intro hsame hstate'
      refine ⟨⟨h.step he, hstate'⟩, ?_⟩
      simp [takesWork_same hsame, hsame]
    have horderly := h.step he
    cases he with
    | run l b hmay hb =>
      obtain ⟨-, he⟩ := TaskManager.step_effect hb
      by_cases htl : t = l.thread
      · subst htl
        refine ⟨⟨horderly, hstate⟩, ?_⟩
        have hwork := (mayRun_worker ht.ne hmay).2 hstate
        unfold takesWork
        split
        next n sk p _ hc hc' =>
          have hzero : visiting (b.thread l.thread).ctl = 0 := by
            rw [show (b.thread l.thread).ctl = _ from hc']
            rfl
          simp [hzero, visiting_of_seeking hc hwork]
        next hno =>
          by_cases hv : visiting (b.thread l.thread).ctl = 0
          · simp [hv]
          · obtain ⟨n, sk, hc⟩ := seeking_of_visiting he hv
            obtain ⟨n', k, hc'⟩ := of_visiting hv
            have hone : visiting (b.thread l.thread).ctl = 1 := by
              rw [hc']
              rfl
            simp [hone, visiting_of_seeking hc hwork]
      · exact hquiet (he.other htl) hstate
    | cancel i =>
      refine hquiet rfl ?_
      by_cases hti : t = i
      · subst hti
        simp
      · simpa [Function.update_of_ne hti] using hstate
    | _ => exact hquiet rfl hstate
  have ha : (system cfg).Along (fun _ _ _ => True) s as :=
    System.along_labels.mpr ⟨by simp [hrun], fun _ _ => trivial⟩
  obtain ⟨-, hle⟩ := System.count_le_of_along hkeep ⟨orderly_reachable hr, hstate⟩ ha hrun
  have hbound : visiting (s.base.thread t).ctl ≤ 1 := by
    unfold visiting
    split <;> omega
  omega

/-- Worker 0 is on its way to the queues when it is cancelled. -/
def lateRun : List (Act ℕ) :=
  [.run ⟨2, .spawn 7 (.new 0 true false) 0⟩, .run ⟨2, .tick 0⟩, .run ⟨0, .tick 0⟩, .destroy, .next]

theorem one_more_task_lateRun :
    let S := system (.small .cilkS [1, 1])
    S.count (takesWork 0) (S.final lateRun) [.run ⟨0, .tick 0⟩] = 1 ∧
      S.count (takesWork 0) (S.final lateRun) [.run ⟨0, .tick 0⟩] ≤ 1 := by
  intro S
  have hr : S.Reachable (Meets fun _ _ => True) (S.final lateRun) :=
    System.reachable_final (by decide)
  obtain ⟨s', hrun⟩ := Option.isSome_iff_exists.mp
    (show (S.run (S.final lateRun) [.run ⟨0, .tick 0⟩]).isSome by decide)
  exact ⟨by decide, one_more_task hr (by decide) (by decide) hrun⟩

/-- The steps that a cancelled worker is away from leaving, if it takes no task. -/
def rank (cfg : Config π) (s : State π) (t : ℕ) : ℕ :=
  match s.exit t, (s.base.thread t).ctl with
  | .exited, _ => 0
  | .broken, _ => 1
  | .working, .seeking _ _ (.test .exit _) => 1
  | .working, .seeking _ _ (.test .loop _) => 2
  | .working, .seeking _ _ (.visit k) => cfg.numQueues - k + 3
  | .working, _ => 0

/-- A thread on its way through the queues can always go on. -/
theorem exists_visit (hcomp : cfg.policy = .prioS → IsStrictWeakOrder π fun x y => cfg.comp x y)
    {b : TaskManager.State π} {t : ℕ} (ht : t ≤ cfg.numThreads) {p : Point π} {n : Word} {k : ℕ}
    (hc : (b.thread t).ctl = .seeking p n (.visit k)) :
    ∃ top b', TaskManager.step cfg b ⟨t, .tick top⟩ = some b' := by
  obtain ⟨top, htop⟩ := exists_top hcomp b ((cfg.queueNumber t + k) % cfg.numQueues)
  refine ⟨top, ?_⟩
  simp only [TaskManager.step, ht, if_true, tick, hc, seek, htop]
  split
  · split
    · exact ⟨_, rfl⟩
    · exact ⟨_, rfl⟩
  · exact ⟨_, rfl⟩

theorem rank_same {t : ℕ} (hthread : s'.base.thread t = s.base.thread t)
    (hexit : s'.exit t = s.exit t) : rank cfg s' t = rank cfg s t := by
  unfold rank
  rw [hthread, hexit]

theorem rank_le (cfg : Config π) (s : State π) (t : ℕ) : rank cfg s t ≤ cfg.numQueues + 3 := by
  unfold rank
  split <;> omega

/-- Worker `t` is cancelled in its work loop. -/
structure State.Leaving (cfg : Config π) (t : ℕ) (s : State π) : Prop where
  orderly : s.Orderly cfg
  cancelled : s.threadState t
  seeking : ∃ n sk, (s.base.thread t).ctl = .seeking .work n sk

/-- A step of its own takes the worker nearer to the exit, and the others do not hold it up. -/
theorem State.Leaving.step {t : ℕ} (h : s.Leaving cfg t) (ht : t < cfg.numThreads) {a : Act π}
    (hno : takesWork t s a s' = false) (hstep : Shutdown.step cfg s a = some s') :
    s'.Leaving cfg t ∧ (if own t s a s' then 1 else 0) + rank cfg s' t ≤ rank cfg s t := by
  have hstate := h.cancelled
  obtain ⟨n, sk, hc⟩ := h.seeking
  have he := step_effect hstep
  have horderly := h.orderly.step he
  have hquiet : s'.base.thread t = s.base.thread t → s'.exit t = s.exit t →
      s'.threadState t → own t s a s' = false →
      s'.Leaving cfg t ∧ (if own t s a s' then 1 else 0) + rank cfg s' t ≤ rank cfg s t := by
    intro hthread hexit hstate' hown
    refine ⟨⟨horderly, hstate', n, sk, by rw [hthread, hc]⟩, ?_⟩
    simp [hown, rank_same hthread hexit]
  cases he with
  | run l b hmay hb =>
    obtain ⟨-, he⟩ := TaskManager.step_effect hb
    by_cases htl : t = l.thread
    · subst htl
      obtain ⟨hexit, hwork⟩ := mayRun_worker ht.ne hmay
      cases sk with
      | test site pc =>
        have := hwork hstate
        simp [hc, workTest] at this
      | visit k =>
        rcases visit_step hc hb with ⟨hc', hk⟩ | ⟨x, hc'⟩ | hc'
        · refine ⟨⟨horderly, hstate, n, _, hc'⟩, ?_⟩
          simp only [own, beq_self_eq_true, if_true, rank, hexit, hc, hc']
          omega
        · simp [takesWork, hc, hc'] at hno
        · refine ⟨⟨horderly, hstate, n, _, hc'⟩, ?_⟩
          simp only [own, beq_self_eq_true, if_true, rank, hexit, hc, hc']
          omega
    · exact hquiet (he.other htl) rfl hstate (by simpa [own] using Ne.symm htl)
  | broken t' ht' hstate' hexit hsite =>
    by_cases htt : t' = t
    · subst htt
      refine ⟨⟨horderly, hstate, n, sk, hc⟩, ?_⟩
      cases sk with
      | visit => simp [hc, workTest] at hsite
      | test site pc =>
        rw [hc] at hsite
        cases hsite
        simp [own, rank, hexit, hc]
    · exact hquiet rfl (Function.update_of_ne (Ne.symm htt) _ _) hstate (by simpa [own] using htt)
  | exited t' ht' hstate' hcase =>
    by_cases htt : t' = t
    · subst htt
      refine ⟨⟨horderly, hstate, n, sk, hc⟩, ?_⟩
      rcases hcase with hexit | ⟨hexit, hsite⟩
      · simp [own, rank, hexit]
      · cases sk with
        | visit => simp [hc, workTest] at hsite
        | test site pc =>
          rw [hc] at hsite
          cases hsite
          simp [own, rank, hexit, hc]
    · exact hquiet rfl (Function.update_of_ne (Ne.symm htt) _ _) hstate (by simpa [own] using htt)
  | cancel i =>
    refine hquiet rfl rfl ?_ rfl
    by_cases hti : t = i
    · subst hti
      simp
    · simpa [Function.update_of_ne hti] using hstate
  | _ => exact hquiet rfl rfl hstate rfl

/-- The worker is never held up: it has left, or it can take its next step. -/
theorem State.Leaving.goes_on {t : ℕ} (h : s.Leaving cfg t) (ht : t < cfg.numThreads)
    (hcomp : cfg.policy = .prioS → IsStrictWeakOrder π fun x y => cfg.comp x y) :
    s.exit t = .exited ∨ ∃ a s', own t s a s' ∧ Shutdown.step cfg s a = some s' := by
  obtain ⟨n, sk, hc⟩ := h.seeking
  have hleave : ∀ s', leave s t = some s' →
      ∃ a s', own t s a s' ∧ Shutdown.step cfg s a = some s' := by
    intro s' hs
    exact ⟨.leave t, s', by simp [own], by simp [Shutdown.step, ht, h.cancelled, hs]⟩
  cases hexit : s.exit t with
  | exited => exact .inl rfl
  | broken => exact .inr (hleave _ (by rw [leave, hexit]))
  | working =>
    right
    cases sk with
    | test site pc =>
      cases site
      · exact hleave _ (by rw [leave, hexit, hc]; rfl)
      · exact hleave _ (by rw [leave, hexit, hc]; rfl)
    | visit k =>
      obtain ⟨top, b, hb⟩ := exists_visit hcomp ht.le hc
      have hmay : s.mayRun cfg t := by simp [State.mayRun, ht.ne, hexit, hc, workTest]
      exact ⟨.run ⟨t, .tick top⟩, { s with base := b }, by simp [own], by
        simp [Shutdown.step, hmay, hb]⟩

/-- A cancelled worker in its work loop that takes no task leaves within a bounded number of its
own steps, whatever the other threads do. -/
theorem leaves_soon (hcomp : cfg.policy = .prioS → IsStrictWeakOrder π fun x y => cfg.comp x y)
    (hr : (system cfg).Reachable (Meets D) s) {t : ℕ} (ht : t < cfg.numThreads)
    (hstate : s.threadState t) (hc : ∃ n sk, (s.base.thread t).ctl = .seeking .work n sk)
    {as : List (Act π)} (ha : (system cfg).Along (fun s a s' => takesWork t s a s' = false) s as)
    (hrun : (system cfg).run s as = some s') :
    (system cfg).count (own t) s as ≤ cfg.numQueues + 3 ∧
      (s'.exit t = .exited ∨ ∃ a s'', own t s' a s'' ∧ step cfg s' a = some s'') := by
  have hkeep : ∀ s a s', s.Leaving cfg t → takesWork t s a s' = false → step cfg s a = some s' →
      s'.Leaving cfg t ∧ (if own t s a s' then 1 else 0) + rank cfg s' t ≤ rank cfg s t :=
    fun s a s' h hno hstep => h.step ht hno hstep
  obtain ⟨hleaving, hle⟩ :=
    System.count_le_of_along hkeep ⟨orderly_reachable hr, hstate, hc⟩ ha hrun
  have hbound := rank_le cfg s t
  exact ⟨by omega, hleaving.goes_on ht hcomp⟩

/-- Worker 0 is on its way to the queues, which are empty, when it is cancelled. -/
def idleRun : List (Act ℕ) := [.run ⟨0, .tick 0⟩, .destroy, .next]

/-- It visits both queues, and the two tests of `get_task` let it go. -/
def leavingRun : List (Act ℕ) :=
  List.replicate 3 (.run ⟨0, .tick 0⟩) ++ List.replicate 2 (.leave 0)

theorem leaves_soon_leavingRun :
    let S := system (.small .cilkS [1, 1])
    S.count (own 0) (S.final idleRun) leavingRun = 5 ∧
      S.count (own 0) (S.final idleRun) leavingRun ≤ 2 + 3 ∧
        ∃ s', S.run (S.final idleRun) leavingRun = some s' ∧
          (s'.exit 0 = .exited ∨
            ∃ a s'', own 0 s' a s'' ∧ step (.small .cilkS [1, 1]) s' a = some s'') := by
  intro S
  have hr : S.Reachable (Meets fun _ _ => True) (S.final idleRun) :=
    System.reachable_final (by decide)
  obtain ⟨s', hrun⟩ := Option.isSome_iff_exists.mp
    (show (S.run (S.final idleRun) leavingRun).isSome by decide)
  have ha : S.Along (fun s a s' => takesWork 0 s a s' = false) (S.final idleRun) leavingRun := by
    decide
  obtain ⟨hle, hend⟩ := leaves_soon (fun h => absurd h (by decide)) hr (by decide) (by decide)
    ⟨_, _, rfl⟩ ha hrun
  exact ⟨by decide, hle, s', hrun, hend⟩

end PFunc.Shutdown
