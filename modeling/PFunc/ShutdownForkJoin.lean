import PFunc.Shutdown
import PFunc.Priorities

/-!
# Shutdown of fork-join programs

If the main program has waited for every task it spawned, the destructor finds nothing to do and
nothing is lost. If it has not, the workers that are in a task still finish it: those that wait
find the children they wait for, although the other workers may be gone.
-/

namespace PFunc.Shutdown

open LabelledRuns Atomics Event QueueSet TaskManager

variable {π : Type} {cfg : Config π} {s s' s₁ : State π}
variable {root : TaskManager.State π → Attribute π → Prop}
variable {rel : Attribute π → Attribute π → Prop}

/-! ### Programs that wait for their roots -/

/-- If every root is complete, so are all tasks. -/
theorem not_active_of_roots {b : TaskManager.State π}
    (hr : (TaskManager.system cfg).Reachable (ForkJoin cfg root rel) b)
    (hroots : ∀ h, b.hist.parent h = none → b.hist.entries h .spawning = b.hist.entries h .complete)
    (h : Handle) : ¬b.toStacks.Active h := by
  have hinv := (joined_reachable hr).invariant
  -- a task was put after its parent was taken, so the oldest active task is a root
  induction hn : b.hist.born h using Nat.strongRecOn generalizing h with
  | ind n ih =>
    intro hactive
    cases hp : b.hist.parent h with
    | none => exact not_active_of_idle (respawn_of_forkJoin hr) (hroots h hp) hactive
    | some p =>
      obtain ⟨i, hi⟩ := hinv.parent_mem h p hactive hp
      have h₁ : b.hist.born p < b.hist.began p := hinv.born_began p i hi
      have h₂ : b.hist.began p < b.hist.born h := hinv.began_born h p hactive hp
      exact ih _ (by omega) p rfl (.inr ⟨i, hi⟩)

/-- No task is queued or on a stack, and the main program is in the destructor. -/
structure State.Quiet (cfg : Config π) (s : State π) : Prop where
  phase : s.phase ≠ .program
  idle : ∀ h, ¬s.base.toStacks.Active h

theorem State.Quiet.step {a : Act π} (h : s.Quiet cfg)
    (hr : (system cfg).Reachable (Meets (ForkJoin cfg root rel)) s)
    (hr' : (system cfg).Reachable (Meets (ForkJoin cfg root rel)) s') (he : Effect cfg s a s') :
    s'.Quiet cfg ∧ ∀ x, s'.base.hist.entries x .queued = s.base.hist.entries x .queued := by
  have hbase := respawn_of_forkJoin (base_reachable hr)
  have hbase' := respawn_of_forkJoin (base_reachable hr')
  cases he with
  | run l b hmay hb =>
    obtain ⟨hl, he⟩ := TaskManager.step_effect hb
    have hqueued : ∀ x, b.hist.entries x .queued = s.base.hist.entries x .queued := by
      intro x
      rcases (he.entries_cases x).2 with heq | ⟨q, hc, -⟩
      · exact heq
      rcases Nat.lt_or_eq_of_le hl with hlt | heq
      · -- a worker that spawns has a task
        have hne := (callStack_reachable hbase l.thread hl).worker hlt (by rw [hc]; rfl)
        obtain ⟨f, fs, hf⟩ := List.exists_cons_of_ne_nil hne
        exact absurd (.inr ⟨l.thread, by simp [State.toStacks, Thread.stack, hf]⟩) (h.idle f.task)
      · rw [heq] at hmay
        exact absurd (mayRun_main hmay) h.phase
    refine ⟨⟨h.phase, fun x => ?_⟩, hqueued⟩
    have hidle := h.idle x
    rw [active_iff hbase] at hidle
    have := (he.entries_cases x).1
    have := hqueued x
    have hidle' : ¬b.hist.entries x .complete < b.hist.entries x .queued := by omega
    exact mt (active_iff hbase' x).mp hidle'
  | destroy => exact ⟨⟨by simp, h.idle⟩, fun _ => rfl⟩
  | cancel => exact ⟨⟨by simp, h.idle⟩, fun _ => rfl⟩
  | cancelled => exact ⟨⟨by simp, h.idle⟩, fun _ => rfl⟩
  | join => exact ⟨⟨by simp, h.idle⟩, fun _ => rfl⟩
  | joined => exact ⟨⟨by simp, h.idle⟩, fun _ => rfl⟩
  | _ => exact ⟨⟨h.phase, h.idle⟩, fun _ => rfl⟩

/-- If the main program has waited for its tasks when it calls the destructor, no task is queued
or in hand from then on, and no functor is called any more. -/
theorem nothing_lost (hr : (system cfg).Reachable (Meets (ForkJoin cfg root rel)) s)
    (hroots : ∀ h, s.base.hist.parent h = none →
      s.base.hist.entries h .spawning = s.base.hist.entries h .complete)
    (hdestroy : step cfg s .destroy = some s₁) {as : List (Act π)}
    (ha : (system cfg).Along (fun s a _ => Meets (ForkJoin cfg root rel) s a) s₁ as)
    (hrun : (system cfg).run s₁ as = some s') :
    (∀ q, s'.base.queue q = []) ∧ (∀ t, (s'.base.thread t).stack = []) ∧
      ∀ h, s'.base.hist.entries h .running = s₁.base.hist.entries h .running := by
  have hmeets : Meets (ForkJoin cfg root rel) s .destroy := trivial
  have hr₁ := hr.step hmeets hdestroy
  have hidle := not_active_of_roots (base_reachable hr) hroots
  have hquiet : s₁.Quiet cfg := by
    cases step_effect hdestroy with
    | destroy hphase hc => exact ⟨by simp, hidle⟩
  obtain ⟨hr', h, hqueued⟩ := System.run_keeps (S := system cfg)
    (I := fun s => (system cfg).Reachable (Meets (ForkJoin cfg root rel)) s ∧ s.Quiet cfg ∧
      ∀ x, s.base.hist.entries x .queued = s₁.base.hist.entries x .queued)
    (fun s a s' hI hd hs => by
      obtain ⟨hr, h, hqueued⟩ := hI
      have hr' := hr.step hd hs
      obtain ⟨h', hsame⟩ := h.step hr hr' (step_effect hs)
      exact ⟨hr', h', fun x => (hsame x).trans (hqueued x)⟩)
    ⟨hr₁, hquiet, fun _ => rfl⟩ ha hrun
  refine ⟨fun q => ?_, fun t => ?_, fun x => ?_⟩
  · exact List.eq_nil_iff_forall_not_mem.mpr fun x hx => h.idle x (.inl ⟨q, hx⟩)
  · exact List.eq_nil_iff_forall_not_mem.mpr fun x hx => h.idle x (.inr ⟨t, hx⟩)
  · have hruns : ∀ s : State π, (system cfg).Reachable (Meets (ForkJoin cfg root rel)) s →
        s.Quiet cfg → s.base.hist.entries x .running = s.base.hist.entries x .queued := by
      intro s hr h
      have hbase := respawn_of_forkJoin (base_reachable hr)
      have hidle := h.idle x
      rw [active_iff hbase] at hidle
      have := (flow_reachable hbase).1.stages x
      omega
    rw [hruns s' hr' h, hruns s₁ hr₁ hquiet, hqueued x]

/-- Worker 1 steals the task of the main program, which waits for it. -/
def joinedRun : List (Act ℕ) := (stealRun ++ ticks 1 1 ++ ticks 2 5).map .run

/-- The workers are cancelled, visit the queues once more and leave. -/
def closingRun : List (Act ℕ) :=
  [.run ⟨0, .tick 0⟩, .next, .next, .next, .run ⟨0, .tick 0⟩, .run ⟨0, .tick 0⟩, .run ⟨0, .tick 0⟩,
    .leave 0, .leave 0, .leave 1, .leave 1, .next, .next, .next]

theorem nothing_lost_closingRun :
    let S := system (.small .cilkS [1, 1])
    ∃ s₁ s', step (.small .cilkS [1, 1]) (S.final joinedRun) .destroy = some s₁ ∧
      S.run s₁ closingRun = some s' ∧ s'.phase = .deleted ∧ (∀ q, s'.base.queue q = []) ∧
      (∀ t, (s'.base.thread t).stack = []) ∧
      ∀ h, s'.base.hist.entries h .running = s₁.base.hist.entries h .running := by
  intro S
  have hr : S.Reachable (Meets (ForkJoin (.small .cilkS [1, 1]) SingleRoot
      fun a c => a.level ≤ c.level)) (S.final joinedRun) := System.reachable_final (by decide)
  have hentries : (S.final joinedRun).base.hist.entries =
      ((((((TaskManager.initial (.small .cilkS [1, 1])).hist.enter 7 .spawning).enter 7
        .queued).enter 7 .taken).enter 7 .running).enter 7 .returned |>.enter 7 .complete).entries :=
    rfl
  have hroots : ∀ h, (S.final joinedRun).base.hist.parent h = none →
      (S.final joinedRun).base.hist.entries h .spawning =
        (S.final joinedRun).base.hist.entries h .complete := by
    intro h _
    rw [hentries]
    by_cases hh : 7 = h <;> simp [History.enter, TaskManager.initial, hh]
  obtain ⟨s₁, hdestroy⟩ := Option.isSome_iff_exists.mp
    (show (step (.small .cilkS [1, 1]) (S.final joinedRun) .destroy).isSome by decide)
  have hs₁ : s₁ = S.final (joinedRun ++ [.destroy]) := by
    cases hdestroy
    rfl
  subst hs₁
  obtain ⟨s', hrun⟩ := Option.isSome_iff_exists.mp
    (show (S.run (S.final (joinedRun ++ [.destroy])) closingRun).isSome by decide)
  have hphase : s'.phase = .deleted := by
    cases hrun
    rfl
  exact ⟨_, s', hdestroy, hrun, hphase, nothing_lost hr hroots hdestroy (by decide) hrun⟩

/-! ### Workers that are in a task -/

/-- The destructor waits for workers that have not left, and each of them waits in a task and
finds none to run. -/
structure State.Stuck (cfg : Config π) (s : State π) : Prop where
  waits : ∃ t < cfg.numThreads, s.exit t ≠ .exited
  blocked : ∃ top : ℕ → ℕ,
    (∀ q < cfg.numQueues,
      LegitTop cfg.policy (compareTaskPtr cfg s.base) (s.base.queue q) (top q)) ∧
    ∀ t < cfg.numThreads, s.exit t ≠ .exited →
      (s.base.thread t).stack ≠ [] ∧ s.base.Blocked cfg top t

theorem State.Stuck.deadlocked (h : s.Stuck cfg)
    (hr : (system cfg).Reachable (Meets (ForkJoin cfg root rel)) s) : s.base.Deadlocked cfg := by
  obtain ⟨⟨t, ht, hexit⟩, top, htop, hblocked⟩ := h
  refine ⟨⟨t, (hblocked t ht hexit).1⟩, top, htop, fun t' ht' hne => ?_⟩
  -- who has left has no task
  by_cases hleft : s.exit t' = .exited
  · have hc := ((orderly_reachable hr).left t' (by simp [hleft])).2.2
    exact absurd (idle_of_workTest (respawn_of_forkJoin (base_reachable hr)) ht'.le hc) hne
  · exact (hblocked t' ht' hleft).2

/-- A deadlocked worker is refused the candidate of its own queue, which is not empty. -/
theorem refused_of_deadlocked {b : TaskManager.State π}
    (hr : (TaskManager.system cfg).Reachable (ForkJoin cfg root rel) b)
    (h : b.Deadlocked cfg) : ∃ t < cfg.numThreads, ∃ a c x, b.WaitsFor t a c ∧
      c ∈ b.queue (cfg.queueNumber t) ∧ x ∈ b.queue (cfg.queueNumber t) ∧
      (cfg.policy = .prioS →
        ∀ y ∈ b.queue (cfg.queueNumber t), compareTaskPtr cfg b x y = false) ∧
      cfg.policy.waitingPred cfg.comp (b.task a).toCopy (b.task x).toCopy = false := by
  obtain ⟨hbusy, top, htop, hblocked⟩ := h
  obtain ⟨t, ht, a, c, hw, hc, -⟩ := deadlock_waiter hr hbusy hblocked
  obtain ⟨rest, ha⟩ := hw.stack
  have hqueue := Config.queueNumber_lt ht
  obtain ⟨x, hx, hpos⟩ := exists_candidate true (List.ne_nil_of_mem hc) (htop _ hqueue)
  rcases blocked_cases hr ht (hblocked t ht (by simp [ha])) with ⟨hnil, -⟩ | ⟨b', c', hw', -, hno⟩
  · rw [ha] at hnil
    cases hnil
  · obtain ⟨rest', hb⟩ := hw'.stack
    rw [ha] at hb
    cases hb
    refine ⟨t, ht, a, c, x, hw, hc, hx, fun hp y hy => ?_, hno _ hqueue x (by simpa using hpos)⟩
    obtain ⟨w, hw, hmax⟩ := (htop _ hqueue hp).resolve_left (List.ne_nil_of_mem hc)
    simp only [hp, position] at hpos
    cases hpos.symm.trans hw
    exact hmax y hy

/-- The destructor of a fork-join program with a single root never waits for ever for workers that
wait for each other, whenever it is called. -/
theorem shutdown_not_stuck (hp : cfg.policy ≠ .prioS)
    (hr : (system cfg).Reachable
      (Meets (ForkJoin cfg SingleRoot fun a c => a.level ≤ c.level)) s) : ¬s.Stuck cfg := by
  intro hstuck
  have hbase := base_reachable hr
  have hdead := hstuck.deadlocked hr
  cases hpol : cfg.policy with
  | cilkS =>
    exact not_deadlocked_of_layered hpol hbase (layered_of_singleRoot hpol hbase) (fun _ _ h => h)
      (fun _ _ _ _ h => h.elim) hdead
  | prioS => exact hp hpol
  | lifoS =>
    obtain ⟨t, -, a, c, x, -, -, -, -, hrefused⟩ := refused_of_deadlocked hbase hdead
    simp [hpol, Policy.waitingPred] at hrefused
  | fifoS =>
    obtain ⟨t, -, a, c, x, -, -, -, -, hrefused⟩ := refused_of_deadlocked hbase hdead
    simp [hpol, Policy.waitingPred] at hrefused

/-- Worker 1 has left, and worker 0 waits for a child in its queue. -/
def strandedRun : List (Act ℕ) :=
  waitRun.map .run ++ [.destroy, .next, .next, .next, .leave 1, .leave 1]

theorem shutdown_not_stuck_strandedRun :
    let s := (system (.small .cilkS [1, 1])).final strandedRun
    s.phase = .joining 0 ∧ s.exit 1 = .exited ∧ s.base.queue 0 = [1] ∧
      ¬s.Stuck (.small .cilkS [1, 1]) := by
  intro s
  exact ⟨by decide, by decide, by decide,
    shutdown_not_stuck (by decide) (System.reachable_final (by decide))⟩

end PFunc.Shutdown
