import PFunc.Effects
import Mathlib.Algebra.BigOperators.Group.Finset.Basic

/-!
# The stages of a spawn

A spawn passes the stages in order, and a stage has been entered as often as the next one
plus the number of places that hold the task at that stage.
-/

namespace PFunc.TaskManager

open LabelledRuns Atomics Event QueueSet Finset

variable {π : Type} {cfg : Config π} {s s' : State π}

/-- How often a thread holds a task at a stage. -/
def Thread.count (th : Thread π) (h : Handle) (st : Stage) : ℕ :=
  (if th.ctl.token = some (h, st) then 1 else 0) +
    if st = .running then (th.frames.map (·.task)).count h else 0

namespace State

def occupancy (cfg : Config π) (s : State π) (h : Handle) (st : Stage) : ℕ :=
  ∑ t ∈ range (cfg.numThreads + 1), (s.thread t).count h st +
    if st = .queued then ∑ q ∈ range cfg.numQueues, (s.queue q).count h else 0

def Flow (cfg : Config π) (s : State π) : Prop :=
  ∀ h st st', Stage.next st = some st' →
    s.hist.entries h st = s.hist.entries h st' + s.occupancy cfg h st

end State

theorem sum_update {β : Type} (w : β → ℕ) {n i : ℕ} (hi : i < n) (f : ℕ → β) (x : β) :
    ∑ j ∈ range n, w (Function.update f i x j) + w (f i) = ∑ j ∈ range n, w (f j) + w x := by
  have hmem : i ∈ range n := mem_range.mpr hi
  have hrest : ∑ j ∈ (range n).erase i, w (Function.update f i x j) =
      ∑ j ∈ (range n).erase i, w (f j) := by
    apply sum_congr rfl
    intro j hj
    rw [Function.update_of_ne (ne_of_mem_erase hj)]
  rw [← add_sum_erase _ _ hmem, ← add_sum_erase _ (fun j => w (f j)) hmem, hrest,
    Function.update_self]
  omega

/-- A step that gives one thread a new stack and control. -/
theorem occupancy_setThread (s s' : State π) {t : ℕ} (ht : t ≤ cfg.numThreads) {th : Thread π}
    (hthread : s'.thread = Function.update s.thread t th) (hqueue : s'.queue = s.queue)
    (h : Handle) (st : Stage) :
    s'.occupancy cfg h st + (s.thread t).count h st = s.occupancy cfg h st + th.count h st := by
  have hlt : t < cfg.numThreads + 1 := by omega
  have := sum_update (fun th => th.count h st) hlt s.thread th
  simp only [State.occupancy, hthread, hqueue]
  omega

/-- A step that also changes one queue. -/
theorem occupancy_setQueue (s s' : State π) {t q : ℕ} (ht : t ≤ cfg.numThreads) (hq : q < cfg.numQueues)
    {th : Thread π} {queue : List Handle} (hthread : s'.thread = Function.update s.thread t th)
    (hqueue : s'.queue = Function.update s.queue q queue) (h : Handle) (st : Stage) :
    s'.occupancy cfg h st + (s.thread t).count h st +
        (if st = .queued then (s.queue q).count h else 0) =
      s.occupancy cfg h st + th.count h st + if st = .queued then queue.count h else 0 := by
  have hlt : t < cfg.numThreads + 1 := by omega
  have hthreads := sum_update (fun th => th.count h st) hlt s.thread th
  have hqueues := sum_update (fun l => l.count h) hq s.queue queue
  simp only [State.occupancy, hthread, hqueue]
  split <;> omega

namespace State.Flow

theorem same (hs : s.Flow cfg) (he : s'.hist.entries = s.hist.entries)
    (ho : ∀ h st, s'.occupancy cfg h st = s.occupancy cfg h st) : s'.Flow cfg := by
  intro h st st' hst
  rw [he, ho]
  exact hs h st st' hst

/-- A task enters a stage and leaves the one before, if there is one. -/
theorem enter (hs : s.Flow cfg) (x : Handle) (b : Stage)
    (he : ∀ h st, s'.hist.entries h st =
      s.hist.entries h st + if x = h ∧ b = st then 1 else 0)
    (ho : ∀ h st st', Stage.next st = some st' →
      s'.occupancy cfg h st + (if x = h ∧ b = st' then 1 else 0) =
        s.occupancy cfg h st + if x = h ∧ b = st then 1 else 0) : s'.Flow cfg := by
  intro h st st' hst
  have hold := hs h st st' hst
  have hocc := ho h st st' hst
  rw [he, he]
  omega

end State.Flow

theorem occupancy_same (s s' : State π) {t : ℕ} (ht : t ≤ cfg.numThreads) {th : Thread π}
    (hthread : s'.thread = Function.update s.thread t th) (hqueue : s'.queue = s.queue)
    (hframes : th.frames = (s.thread t).frames) (htoken : th.ctl.token = (s.thread t).ctl.token)
    (h : Handle) (st : Stage) : s'.occupancy cfg h st = s.occupancy cfg h st := by
  have hocc := occupancy_setThread s s' ht hthread hqueue h st
  simp only [Thread.count, hframes, htoken] at hocc
  omega

/-- `put` will be given a queue that exists. -/
def State.QueuesExist (cfg : Config π) (s : State π) : Prop :=
  ∀ t h q, (s.thread t).ctl = .spawning h q → q < cfg.numQueues

theorem queuesExist_effect {l : Label π} (hs : s.QueuesExist cfg) (he : Effect cfg s l s') :
    s'.QueuesExist cfg := by
  intro t h' q' hctl
  by_cases ht : t = l.thread
  swap
  · rw [he.other ht] at hctl
    exact hs t h' q' hctl
  subst ht
  rcases he.ctl_spawning hctl with rfl | ⟨attr, g, -, -, hq, -⟩
  · exact hs _ h' q' hctl
  · exact hq

theorem flow_effect {l : Label π} (ht : l.thread ≤ cfg.numThreads) (hs : s.Flow cfg)
    (hinv : s.QueuesExist cfg) (he : Effect cfg s l s') : s'.Flow cfg := by
  cases he with
  | stay hact => exact hs
  | spawn h attr g q hact hc hq hqn =>
    refine hs.enter h .spawning (fun _ _ => rfl) ?_
    intro h' st st' hst
    have hocc := occupancy_setThread s (s.spawn l.thread h attr g q) ht rfl rfl h' st
    simp only [Thread.count, hc, Ctl.token, Option.some.injEq, Prod.mk.injEq, reduceCtorEq,
      State.setGroup, State.setTask] at hocc
    by_cases hh : h = h' <;> cases st <;> cases hst <;> simp [hh] at hocc ⊢ <;> omega
  | wait h c hact hc hn hcase =>
    refine hs.same rfl (occupancy_same s _ ht rfl rfl rfl ?_)
    rcases hcase with ⟨-, rfl⟩ | ⟨-, rfl⟩ <;> rw [hc] <;> rfl
  | arrive g x c hact hc hf hcase =>
    refine hs.same rfl (occupancy_same s _ ht rfl rfl rfl ?_)
    rcases hcase with rfl | ⟨myPhase, rfl⟩ <;> simp [hc, Ctl.token]
  | ret f rest hact hc hf =>
    refine hs.enter f.task .returned (fun _ _ => rfl) ?_
    intro h' st st' hst
    have hocc := occupancy_setThread s (s.ret l.thread f rest) ht rfl rfl h' st
    simp only [Thread.count, hc, hf, Ctl.token, Option.some.injEq, Prod.mk.injEq, reduceCtorEq,
      List.map_cons, List.count_cons, beq_iff_eq] at hocc
    by_cases hh : f.task = h' <;> cases st <;> cases hst <;> simp [hh] at hocc ⊢ <;> omega
  | put h q hact hc =>
    refine hs.enter h .queued (fun _ _ => rfl) ?_
    intro h' st st' hst
    have hocc := occupancy_setQueue s (s.put cfg l.thread h q) ht (hinv _ h q hc) rfl rfl h' st
    simp only [Thread.count, hc, Ctl.token, Option.some.injEq, Prod.mk.injEq, reduceCtorEq,
      count_put] at hocc
    by_cases hh : h = h' <;> cases st <;> cases hst <;> simp [hh] at hocc ⊢ <;> omega
  | goto c htoken hawaited hseen hpoint =>
    exact hs.same rfl (occupancy_same s _ ht rfl rfl rfl htoken)
  | test h pc c hpc hwait htoken hawaited hseen hpoint =>
    exact hs.same rfl (occupancy_same s _ ht rfl rfl rfl htoken)
  | take p n k i top h rest hc hi hact hk hik htop hget =>
    refine hs.enter h .taken (fun _ _ => rfl) ?_
    intro h' st st' hst
    have hocc := occupancy_setQueue s (s.take l.thread p i h rest) ht hi rfl rfl h' st
    simp only [Thread.count, hc, found_token, count_testAndGet hget] at hocc
    simp only [Ctl.token, Option.some.injEq, Prod.mk.injEq, reduceCtorEq] at hocc
    by_cases hh : h = h' <;> cases st <;> cases hst <;> simp [hh] at hocc ⊢ <;> omega
  | start p h hc =>
    refine hs.enter h .running (fun _ _ => rfl) ?_
    intro h' st st' hst
    have hocc := occupancy_setThread s (s.start l.thread p h) ht rfl rfl h' st
    simp only [Thread.count, hc, Ctl.token, Option.some.injEq, Prod.mk.injEq, reduceCtorEq,
      List.map_cons, List.count_cons, beq_iff_eq] at hocc
    by_cases hh : h = h' <;> cases st <;> cases hst <;> simp [hh] at hocc ⊢ <;> omega
  | notify f hc =>
    refine hs.enter f.task .complete (fun _ _ => rfl) ?_
    intro h' st st' hst
    have hocc := occupancy_setThread s (s.notify cfg l.thread f) ht rfl rfl h' st
    simp only [Thread.count, hc, resume_token] at hocc
    simp only [Ctl.token, Option.some.injEq, Prod.mk.injEq, reduceCtorEq] at hocc
    by_cases hh : f.task = h' <;> cases st <;> cases hst <;> simp [hh] at hocc ⊢ <;> omega
  | leave h hc =>
    exact hs.same (by simp) (occupancy_same s _ ht (leave_thread s _ h) (leave_queue s _ h) rfl
      (by rw [hc]; rfl))

theorem flow_initial : (initial cfg).Flow cfg := by
  intro h st st' hst
  have hcount : ∀ t, ((initial cfg).thread t).count h st = 0 := by
    intro t
    by_cases ht : t = cfg.numThreads <;> simp [initial, Thread.count, Ctl.token, getTask, ht]
  simp [State.occupancy, hcount]
  simp [initial]

/-- In every run, a stage is entered as often as it is left or still held. -/
theorem flow_reachable {D : State π → Label π → Prop} (hr : (system cfg).Reachable D s) :
    s.Flow cfg ∧ s.QueuesExist cfg := by
  refine hr.invariant (I := fun s => s.Flow cfg ∧ s.QueuesExist cfg) ⟨flow_initial, ?_⟩ ?_
  · intro t h q hctl
    by_cases ht : t = cfg.numThreads <;> simp [system, initial, getTask, ht] at hctl
  · intro s l s' hs _ hstep
    obtain ⟨ht, he⟩ := step_effect hstep
    exact ⟨flow_effect ht hs.1 hs.2 he, queuesExist_effect hs.2 he⟩

end PFunc.TaskManager
