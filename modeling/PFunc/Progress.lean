import PFunc.ForkJoin
import Mathlib.Data.List.GetD

/-!
# Deadlocks of fork-join programs

A state is stuck when a task is incomplete and every worker is at a scheduling point, with its
completion predicate unsatisfied and with a `get` that returns null. In a fork-join run
the worker whose task on top was taken last then waits for a task that is queued.
-/

namespace PFunc.TaskManager

open LabelledRuns Atomics Event QueueSet Finset

variable {π : Type} {cfg : Config π} {s s' : State π}

/-- Where a thread looks for a task, if it does. -/
def Thread.schedulingPoint (th : Thread π) : Option (Point π) :=
  match th.ctl with
  | .seeking p _ _ => some p
  | .spinning g myPhase => some (.barrier th.cache g myPhase)
  | _ => none

/-- The completion predicate of the point is false. -/
def Point.Unsatisfied (s : State π) : Point π → Prop
  | .work => True
  | .wait _ h => (s.task h).testingCompl.eventState = activeIncomplete
  | .barrier _ g myPhase => (s.group g).barrierPhase = myPhase

instance (s : State π) (p : Point π) : Decidable (p.Unsatisfied s) := by
  cases p <;> unfold Point.Unsatisfied <;> infer_instance

/-- The worker finds no task and may not go on; `top` locates the tops of priority queues. -/
def State.Blocked (cfg : Config π) (s : State π) (top : ℕ → ℕ) (t : ℕ) : Prop :=
  ∃ p ∈ (s.thread t).schedulingPoint, p.Unsatisfied s ∧
    (get cfg.policy cfg.numQueues (cfg.queueNumber t) top (p.predicate cfg s) s.queue).isNone

instance (s : State π) (top : ℕ → ℕ) (t : ℕ) : Decidable (s.Blocked cfg top t) := by
  unfold State.Blocked
  infer_instance

/-- A task is incomplete from its `put` on. -/
structure State.Stuck (cfg : Config π) (s : State π) : Prop where
  incomplete : ∃ h, s.hist.entries h .complete < s.hist.entries h .queued
  blocked : ∃ top : ℕ → ℕ,
    (∀ q < cfg.numQueues, LegitTop cfg.policy (compareTaskPtr cfg s) (s.queue q) (top q)) ∧
    ∀ t < cfg.numThreads, s.Blocked cfg top t

/-- Some worker has a task, and every worker that has one is blocked; the others may be gone. -/
structure State.Deadlocked (cfg : Config π) (s : State π) : Prop where
  busy : ∃ t, s.toStacks.stack t ≠ []
  blocked : ∃ top : ℕ → ℕ,
    (∀ q < cfg.numQueues, LegitTop cfg.policy (compareTaskPtr cfg s) (s.queue q) (top q)) ∧
    ∀ t < cfg.numThreads, s.toStacks.stack t ≠ [] → s.Blocked cfg top t

theorem Config.queueNumber_lt {t : ℕ} (ht : t < cfg.numThreads) :
    cfg.queueNumber t < cfg.numQueues := by
  have hlength : (cfg.threadsPerQueue.zipIdx.flatMap fun e => List.replicate e.1 e.2).length =
      cfg.threadsPerQueue.sum := by
    simp [List.length_flatMap, List.zipIdx_map_fst]
  have hlt : t < (cfg.threadsPerQueue.zipIdx.flatMap fun e => List.replicate e.1 e.2).length := by
    rw [hlength]
    exact ht
  unfold Config.queueNumber
  rw [List.getD_eq_getElem _ _ hlt]
  obtain ⟨e, he, hmem⟩ := List.mem_flatMap.mp (List.getElem_mem hlt)
  rw [List.eq_of_mem_replicate hmem]
  simpa [Config.numQueues] using (List.mem_zipIdx he).2.1

/-! ### Programs without barriers -/

/-- The thread has not called a barrier that has still to return. -/
structure Thread.BarrierFree (th : Thread π) : Prop where
  spinning : ∀ g myPhase, th.ctl ≠ .spinning g myPhase
  point : ∀ current g myPhase, th.ctl.point ≠ some (.barrier current g myPhase)
  frames : ∀ f ∈ th.frames, ∀ current g myPhase, f.point ≠ .barrier current g myPhase

theorem Thread.BarrierFree.goto {th : Thread π} (h : th.BarrierFree) {c : Ctl π}
    (hspin : ∀ g myPhase, c ≠ .spinning g myPhase)
    (hp : ∀ current g myPhase, c.point ≠ some (.barrier current g myPhase)) :
    ({ th with ctl := c } : Thread π).BarrierFree :=
  ⟨hspin, hp, h.frames⟩

theorem Thread.BarrierFree.move {th : Thread π} (h : th.BarrierFree) {c : Ctl π}
    (hp : PointMove th c) : ({ th with ctl := c } : Thread π).BarrierFree := by
  cases hp with
  | same hpoint hspin => exact h.goto hspin (hpoint ▸ h.point)
  | left hpoint p hp hw hspin =>
    refine h.goto ?_ (by simp [hpoint])
    intro g myPhase hc
    obtain ⟨current, rfl⟩ := hspin g myPhase hc
    exact h.point current g myPhase hp
  | spin g myPhase hc => exact absurd hc (h.spinning g myPhase)

theorem barrierFree_effect {l : Label π} (hact : l.act ≠ .barrier)
    (h : (s.thread l.thread).BarrierFree) (he : Effect cfg s l s') :
    (s'.thread l.thread).BarrierFree := by
  cases he with
  | stay hb => exact absurd hb hact
  | arrive g x c hb => exact absurd hb hact
  | leave x hc =>
    rw [leave_thread, Function.update_self]
    exact h.goto (by simp) (by simp [Ctl.point])
  | spawn x attr g q =>
    simp only [State.spawn, State.enter, State.goto, State.setThread, Function.update_self]
    exact h.goto (by simp) (by simp [Ctl.point])
  | wait x c _ hc hn hcase =>
    simp only [State.goto, State.setThread, Function.update_self]
    rcases hcase with ⟨-, rfl⟩ | ⟨-, rfl⟩
    · exact h.goto (by simp) (by simp [Ctl.point])
    · exact h.goto (by simp [getTask]) (by simp [getTask, Ctl.point])
  | ret f rest _ hc hf =>
    simp only [State.ret, State.enter, State.setThread, Function.update_self]
    refine ⟨by simp, ?_, fun f' hf' => h.frames f' (by simp [hf, hf'])⟩
    intro current g myPhase hp
    exact h.frames f (by simp [hf]) current g myPhase (Option.some.inj hp)
  | put x q =>
    simp only [State.put, State.goto, State.setThread, Function.update_self]
    exact h.goto (by simp) (by simp [Ctl.point])
  | goto c htoken hawaited hseen hspawn hpoint =>
    simp only [State.goto, State.setThread, Function.update_self]
    exact h.move hpoint
  | test x pc c hpc hwait htoken hawaited hseen hpoint =>
    simp only [State.goto, State.test, State.setTask, State.setThread, Function.update_self]
    exact h.move hpoint
  | take p n k i top x rest hc =>
    simp only [State.take, State.goto, State.setThread, Function.update_self]
    have hp := h.point
    rw [hc] at hp
    exact h.goto (by cases p <;> simp [found]) (by rw [found_point]; exact hp)
  | start p x hc =>
    simp only [State.start, State.enter, State.setThread, Function.update_self]
    refine ⟨by simp, by simp [Ctl.point], ?_⟩
    intro f hf current g myPhase hp
    rcases List.mem_cons.mp hf with rfl | hf
    · exact h.point current g myPhase (by rw [hc]; exact congrArg some hp)
    · exact h.frames f hf current g myPhase hp
  | notify f hc =>
    simp only [State.notify, State.enter, State.setTask, State.setThread, Function.update_self]
    have hp := h.point
    rw [hc] at hp
    cases hf : f.point with
    | work => exact ⟨by simp [resume, getTask], by simp [resume, getTask, Ctl.point], h.frames⟩
    | wait => exact ⟨by simp [resume, getTask], by simp [resume, getTask, Ctl.point], h.frames⟩
    | barrier current g myPhase => exact absurd (congrArg some hf) (hp current g myPhase)

variable {root : State π → Attribute π → Prop} {rel : Attribute π → Attribute π → Prop}

theorem barrierFree_reachable (hr : (system cfg).Reachable (ForkJoin cfg root rel) s) :
    ∀ t, (s.thread t).BarrierFree := by
  refine hr.invariant (I := fun s => ∀ t, (s.thread t).BarrierFree) ?_ ?_
  · intro t
    by_cases ht : t = cfg.numThreads
    · exact ⟨by simp [initial, system, ht], by simp [initial, system, ht, Ctl.point],
        by simp [initial, system]⟩
    · exact ⟨by simp [initial, system, ht, getTask],
        by simp [initial, system, ht, getTask, Ctl.point], by simp [initial, system]⟩
  · intro s l s' hs hd hstep t
    obtain ⟨-, he⟩ := step_effect hstep
    by_cases ht : t = l.thread
    · subst ht
      refine barrierFree_effect ?_ (hs _) he
      intro hact
      have hd' := hd.2
      simp [hact] at hd'
    · rw [he.other ht]
      exact hs t

/-! ### The workers of a stuck state -/

/-- The worker looks for a task in the wait of its task on top, `a`, for `c`. -/
def State.WaitsFor (s : State π) (t : ℕ) (a c : Handle) : Prop :=
  (s.thread t).schedulingPoint = some (.wait (s.task a).toCopy c) ∧
    (s.thread t).frames.head?.map (·.task) = some a

instance (s : State π) (t : ℕ) (a c : Handle) [DecidableEq π] : Decidable (s.WaitsFor t a c) := by
  unfold State.WaitsFor
  infer_instance

theorem State.WaitsFor.mem_waitPairs {t : ℕ} {a c : Handle} (hw : s.WaitsFor t a c) :
    (a, c) ∈ (s.thread t).waitPairs := by
  obtain ⟨hpoint, hhead⟩ := hw
  obtain ⟨f, hf, rfl⟩ := Option.map_eq_some_iff.mp hhead
  obtain ⟨fs, hfs⟩ := List.head?_eq_some_iff.mp hf
  unfold Thread.schedulingPoint at hpoint
  split at hpoint
  next p n sk hc =>
    cases hpoint
    simp [Thread.waitPairs, hfs, waitPairs, hc, Ctl.awaited, Ctl.point, Point.awaited]
  next => cases hpoint
  next => cases hpoint

theorem State.WaitsFor.stack {t : ℕ} {a c : Handle} (hw : s.WaitsFor t a c) :
    ∃ rest, s.toStacks.stack t = a :: rest := by
  obtain ⟨hpoint, hhead⟩ := hw
  obtain ⟨f, hf, rfl⟩ := Option.map_eq_some_iff.mp hhead
  obtain ⟨fs, hfs⟩ := List.head?_eq_some_iff.mp hf
  unfold Thread.schedulingPoint at hpoint
  split at hpoint
  next p n sk hc => exact ⟨fs.map (·.task), by simp [toStacks, Thread.stack, hc, hfs, Ctl.hand]⟩
  next => cases hpoint
  next => cases hpoint

/-- A blocked worker is idle or waits for an incomplete task, and admits no candidate. -/
theorem blocked_cases (hr : (system cfg).Reachable (ForkJoin cfg root rel) s) {top : ℕ → ℕ} {t : ℕ}
    (ht : t < cfg.numThreads) (hb : s.Blocked cfg top t) :
    (s.toStacks.stack t = [] ∧ ∀ q < cfg.numQueues, ∀ x,
      (s.queue q)[position cfg.policy (q == cfg.queueNumber t) (top q) (s.queue q)]? ≠ some x) ∨
    ∃ a c, s.WaitsFor t a c ∧ (s.task c).testingCompl.eventState = activeIncomplete ∧
      ∀ q < cfg.numQueues, ∀ x,
        (s.queue q)[position cfg.policy (q == cfg.queueNumber t) (top q) (s.queue q)]? = some x →
          cfg.policy.waitingPred cfg.comp (s.task a).toCopy (s.task x).toCopy = false := by
  obtain ⟨p, hpoint, hunsat, hget⟩ := hb
  have hfree := barrierFree_reachable hr t
  have hstack := callStack_reachable (respawn_of_forkJoin hr) t (by omega)
  have hadmit : ∀ q < cfg.numQueues, ∀ x,
      (s.queue q)[position cfg.policy (q == cfg.queueNumber t) (top q) (s.queue q)]? = some x →
        (p.predicate cfg s).ownPred x = false := by
    intro q hq x hx
    rw [Option.isNone_iff_eq_none, get_eq_none_iff (Config.queueNumber_lt ht)] at hget
    have hnone := testAndGet_eq_none_iff.mp (hget q hq) x hx
    split at hnone
    · exact hnone
    · cases p <;> exact hnone
  have hseek : ∃ n sk, (s.thread t).ctl = .seeking p n sk := by
    unfold Thread.schedulingPoint at hpoint
    split at hpoint
    next n sk hc =>
      cases hpoint
      exact ⟨_, _, hc⟩
    next g myPhase hc => exact absurd hc (hfree.spinning g myPhase)
    next => cases hpoint
  obtain ⟨n, sk, hc⟩ := hseek
  have hp : (s.thread t).ctl.point = some p := by rw [hc]; rfl
  have hcurrent := hstack.point p hp
  cases p with
  | barrier current g myPhase => exact absurd hp (hfree.point current g myPhase)
  | work =>
    left
    have hnil : (s.thread t).frames = [] := by
      cases hf : (s.thread t).frames with
      | nil => rfl
      | cons f fs => simp [hf, Point.current?] at hcurrent
    refine ⟨by simp [State.toStacks, Thread.stack, hc, Ctl.hand, hnil], ?_⟩
    intro q hq x hx
    have hfalse := hadmit q hq x hx
    simp [Point.predicate, Policy.regularPred] at hfalse
  | wait current c =>
    right
    obtain ⟨f, hf, hcopy⟩ := Option.map_eq_some_iff.mp hcurrent.symm
    subst hcopy
    refine ⟨f.task, c, ⟨hpoint, by simp [hf]⟩, hunsat, ?_⟩
    intro q hq x hx
    exact hadmit q hq x hx

/-- An incomplete task that is awaited is queued or on a stack. -/
theorem active_of_awaited (hr : (system cfg).Reachable (ForkJoin cfg root rel) s) {t : ℕ}
    (ht : t ≤ cfg.numThreads) {a c : Handle} (hw : (a, c) ∈ (s.thread t).waitPairs)
    (hc : (s.task c).testingCompl.eventState = activeIncomplete) : s.toStacks.Active c := by
  have hr' := respawn_of_forkJoin hr
  have hevents := State.Events.reachable hr'
  have hn := hevents.nested t ht c (Thread.mem_awaited.mpr (awaited_of_waitPairs hw))
  have hlt := (hevents.incomplete c hn).mp hc
  have hflow := (flow_reachable hr').1 c .spawning .queued rfl
  have hzero : s.occupancy cfg c .spawning = 0 := by
    have hsum : ∑ t ∈ range (cfg.numThreads + 1), (s.thread t).count c .spawning = 0 := by
      apply sum_eq_zero
      intro t' ht'
      have hle : t' ≤ cfg.numThreads := by
        have := mem_range.mp ht'
        omega
      cases hctl : (s.thread t').ctl with
      | spawning h q =>
        have hne : h ≠ c := by
          intro hh
          subst hh
          exact (joined_reachable hr).unawaited t' hle h q hctl t ht a hw
        simp [Thread.count, hctl, Ctl.token, hne]
      | _ => simp [Thread.count, hctl, Ctl.token]
    simpa [State.occupancy] using hsum
  rw [active_iff hr']
  omega

theorem lt_of_stack_eq (hr : (system cfg).Reachable (Respawn cfg) s) {t : ℕ} {a : Handle}
    {rest : List Handle} (hs : s.toStacks.stack t = a :: rest) : t < cfg.numThreads := by
  have hmem : a ∈ (s.thread t).stack := by
    change s.toStacks.stack t = _ at hs
    exact (congrArg (a ∈ ·) hs).mpr List.mem_cons_self
  exact lt_numThreads_of_mem hr hmem

/-- A blocked worker with a task waits in it for an incomplete one. -/
theorem exists_waitsFor (hr : (system cfg).Reachable (ForkJoin cfg root rel) s) {top : ℕ → ℕ}
    (hblocked : ∀ t < cfg.numThreads, s.toStacks.stack t ≠ [] → s.Blocked cfg top t) {t : ℕ}
    {a : Handle} {rest : List Handle} (hs : s.toStacks.stack t = a :: rest) :
    ∃ c, s.WaitsFor t a c ∧ (s.task c).testingCompl.eventState = activeIncomplete := by
  have ht := lt_of_stack_eq (respawn_of_forkJoin hr) hs
  rcases blocked_cases hr ht (hblocked t ht (by simp [hs])) with ⟨hnil, -⟩ | ⟨b, c, hw, hc, -⟩
  · rw [hs] at hnil
    cases hnil
  · obtain ⟨rest', hb⟩ := hw.stack
    rw [hs] at hb
    cases hb
    exact ⟨c, hw, hc⟩

theorem exists_child (hr : (system cfg).Reachable (ForkJoin cfg root rel) s) {top : ℕ → ℕ}
    (hblocked : ∀ t < cfg.numThreads, s.toStacks.stack t ≠ [] → s.Blocked cfg top t) :
    ∃ child : ℕ → Handle, ∀ t a rest, s.toStacks.stack t = a :: rest →
      s.WaitsFor t a (child t) ∧
        (s.task (child t)).testingCompl.eventState = activeIncomplete := by
  have hpick : ∀ t, ∃ c, ∀ a rest, s.toStacks.stack t = a :: rest →
      s.WaitsFor t a c ∧ (s.task c).testingCompl.eventState = activeIncomplete := by
    intro t
    cases hs : s.toStacks.stack t with
    | nil => exact ⟨0, by simp⟩
    | cons a rest =>
      obtain ⟨c, hc⟩ := exists_waitsFor hr hblocked hs
      refine ⟨c, ?_⟩
      intro a' rest' heq
      cases heq
      exact hc
  choose child hchild using hpick
  exact ⟨child, hchild⟩

/-- If no worker had a task, the incomplete one would be queued, and worker 0 would get it. -/
theorem exists_stack (hr : (system cfg).Reachable (ForkJoin cfg root rel) s)
    (hpos : 0 < cfg.numThreads) {top : ℕ → ℕ}
    (hincomplete : ∃ h, s.hist.entries h .complete < s.hist.entries h .queued)
    (htop : ∀ q < cfg.numQueues, LegitTop cfg.policy (compareTaskPtr cfg s) (s.queue q) (top q))
    (hblocked : ∀ t < cfg.numThreads, s.Blocked cfg top t) : ∃ t, s.toStacks.stack t ≠ [] := by
  have hr' := respawn_of_forkJoin hr
  by_contra hnone
  push Not at hnone
  obtain ⟨h, hh⟩ := hincomplete
  rcases (active_iff hr' h).mpr hh with ⟨q, hq⟩ | ⟨t, ht⟩
  · have hlt := lt_numQueues_of_mem hr' hq
    obtain ⟨x, -, hx⟩ := exists_candidate (q == cfg.queueNumber 0)
      (List.ne_nil_of_mem hq) (htop q hlt)
    rcases blocked_cases hr hpos (hblocked 0 hpos) with ⟨-, hno⟩ | ⟨a, c, hw, -⟩
    · exact hno q hlt x hx
    · obtain ⟨rest, hs⟩ := hw.stack
      rw [hnone 0] at hs
      cases hs
  · rw [hnone t] at ht
    cases ht

/-- Of the blocked workers with a task, the one whose task on top was taken last waits for a
child queued there, and what was put after it comes from outside or from workers of that queue. -/
theorem deadlock_waiter (hr : (system cfg).Reachable (ForkJoin cfg root rel) s) {top : ℕ → ℕ}
    (hbusy : ∃ t, s.toStacks.stack t ≠ [])
    (hblocked : ∀ t < cfg.numThreads, s.toStacks.stack t ≠ [] → s.Blocked cfg top t) :
    ∃ t < cfg.numThreads, ∃ a c, s.WaitsFor t a c ∧ c ∈ s.queue (cfg.queueNumber t) ∧
      s.hist.parent c = some a ∧
      ∀ x ∈ s.queue (cfg.queueNumber t), s.hist.born c ≤ s.hist.born x →
        s.hist.parent x = none ∨ ∃ t' < cfg.numThreads, ∃ b c', s.WaitsFor t' b c' ∧
          cfg.queueNumber t' = cfg.queueNumber t ∧ s.hist.parent x = some b := by
  have hr' := respawn_of_forkJoin hr
  have hj := joined_reachable hr
  obtain ⟨child, hchild⟩ := exists_child hr hblocked
  have hactive : ∀ t a rest, s.toStacks.stack t = a :: rest →
      s.toStacks.Active (child t) ∧ s.hist.parent (child t) = some a := by
    intro t a rest hs
    have ht := lt_of_stack_eq hr' hs
    obtain ⟨hw, hc⟩ := hchild t a rest hs
    have hmem := hw.mem_waitPairs
    refine ⟨?_, hj.parent t (by omega) a _ hmem⟩
    exact active_of_awaited hr (by omega) hmem hc
  have hfinite : {t | s.toStacks.stack t ≠ []}.Finite := by
    refine (Set.finite_lt_nat cfg.numThreads).subset ?_
    intro t ht
    obtain ⟨a, rest, hs⟩ := List.exists_cons_of_ne_nil ht
    exact lt_of_stack_eq hr' hs
  obtain ⟨t, a, rest, hs, hqueue, hlater⟩ :=
    hj.invariant.exists_latest hfinite hbusy child hactive
  refine ⟨t, lt_of_stack_eq hr' hs, a, child t, (hchild t a rest hs).1, hqueue,
    (hactive t a rest hs).2, ?_⟩
  intro x hx hborn
  rcases hlater x hx hborn with hnone | ⟨t', b, rest', hb, hhome, hp⟩
  · exact .inl hnone
  · exact .inr ⟨t', lt_of_stack_eq hr' hb, b, child t', (hchild t' b rest' hb).1, hhome, hp⟩

/-- The same of a stuck state, where some worker has a task. -/
theorem stuck_waiter (hr : (system cfg).Reachable (ForkJoin cfg root rel) s)
    (hpos : 0 < cfg.numThreads) {top : ℕ → ℕ}
    (hincomplete : ∃ h, s.hist.entries h .complete < s.hist.entries h .queued)
    (htop : ∀ q < cfg.numQueues, LegitTop cfg.policy (compareTaskPtr cfg s) (s.queue q) (top q))
    (hblocked : ∀ t < cfg.numThreads, s.Blocked cfg top t) :
    ∃ t < cfg.numThreads, ∃ a c, s.WaitsFor t a c ∧ c ∈ s.queue (cfg.queueNumber t) ∧
      s.hist.parent c = some a ∧
      ∀ x ∈ s.queue (cfg.queueNumber t), s.hist.born c ≤ s.hist.born x →
        s.hist.parent x = none ∨ ∃ t' < cfg.numThreads, ∃ b c', s.WaitsFor t' b c' ∧
          cfg.queueNumber t' = cfg.queueNumber t ∧ s.hist.parent x = some b :=
  deadlock_waiter hr (exists_stack hr hpos hincomplete htop hblocked) fun t ht _ => hblocked t ht

end PFunc.TaskManager
