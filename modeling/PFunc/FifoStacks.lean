import PFunc.Liveness

/-!
# Stacks under `fifoS`

A worker under `fifoS` that waits for a child takes what was put first, so a task waits on
top of another one until the second one's child has been served behind all that were queued
before. The stack of a single worker can grow to any height, though no task is more than two levels
below the root.
-/

namespace PFunc.TaskManager

open LabelledRuns Atomics Event QueueSet

variable {π : Type} {cfg : Config π} {s s' : State π}

/-- The calls of a fork-join program with one root, its levels as documented. -/
def Levelled (cfg : Config π) : State π → Label π → Prop :=
  ForkJoin cfg SingleRoot fun a c => c.level = a.level + 1

/-- A single worker under `fifoS`. -/
structure Config.SingleFifo (cfg : Config π) : Prop where
  policy : cfg.policy = .fifoS
  threadsPerQueue : cfg.threadsPerQueue = [1]
  attempts : 0 < cfg.taskMaxAttempts

namespace Config.SingleFifo

theorem numThreads (h : cfg.SingleFifo) : cfg.numThreads = 1 := by
  simp [Config.numThreads, h.threadsPerQueue]

theorem numQueues (h : cfg.SingleFifo) : cfg.numQueues = 1 := by
  simp [Config.numQueues, h.threadsPerQueue]

theorem queueNumber (h : cfg.SingleFifo) (t : ℕ) : cfg.queueNumber t = 0 := by
  cases t <;> simp [Config.queueNumber, h.threadsPerQueue]

end Config.SingleFifo

/-- No spawn of the handle is under way, and nobody waits for it or will. -/
structure State.Fresh (cfg : Config π) (s : State π) (h : Handle) : Prop where
  idle : s.hist.entries h .spawning = s.hist.entries h .complete
  joined : h ∉ s.hist.unjoined
  unawaited : ∀ t ≤ cfg.numThreads, h ∉ (s.thread t).awaited

@[simp] theorem goto_goto (s : State π) (t : ℕ) (c c' : Ctl π) :
    (s.goto t c).goto t c' = s.goto t c' := by
  simp [State.goto, State.setThread]

theorem reachable_tick {t : ℕ} (ht : t ≤ cfg.numThreads)
    (hr : (system cfg).Reachable (Levelled cfg) s) (htick : tick cfg s t 0 = some s') :
    (system cfg).Reachable (Levelled cfg) s' :=
  hr.step (a := ⟨t, .tick 0⟩) ⟨trivial, trivial⟩ (by simp [system, step, htick, ht])

/-! ### Spawning -/

/-- After a spawn and the `put` that ends it. -/
def State.spawned (cfg : Config π) (s : State π) (t : ℕ) (h : Handle) (attr : Attribute π) :
    State π :=
  (s.spawn t h attr 0 0).put cfg t h 0

section Spawned

variable {t : ℕ} {h : Handle} {attr : Attribute π}

theorem spawned_task (x : Handle) : (s.spawned cfg t h attr).task x =
    if x = h then ((s.task h).spawn attr 0 (s.group 0)).1 else s.task x := by
  by_cases hx : x = h
  · subst hx
    simp [State.spawned, State.put, State.spawn, State.enter, State.goto, State.setThread,
      State.setGroup, State.setTask]
  · simp [State.spawned, State.put, State.spawn, State.enter, State.goto, State.setThread,
      State.setGroup, State.setTask, hx]

theorem spawned_attr (x : Handle) : ((s.spawned cfg t h attr).task x).attr =
    if x = h then attr else (s.task x).attr := by
  rw [spawned_task]
  split
  · exact Task.spawn_attr ..
  · rfl

theorem spawned_thread (hctl : (s.thread t).ctl = .functor) (u : ℕ) :
    (s.spawned cfg t h attr).thread u = s.thread u := by
  by_cases hu : u = t
  · subst hu
    simp [State.spawned, State.put, State.spawn, State.enter, State.goto, State.setThread,
      State.setGroup, State.setTask, ← hctl]
  · simp [State.spawned, State.put, State.spawn, State.enter, State.goto, State.setThread,
      State.setGroup, State.setTask, hu]

theorem spawned_queue (hcfg : cfg.SingleFifo) :
    (s.spawned cfg t h attr).queue 0 = s.queue 0 ++ [h] := by
  simp [State.spawned, State.put, State.spawn, State.enter, State.goto, State.setThread,
    State.setGroup, State.setTask, QueueSet.put, hcfg.policy]

theorem spawned_parent {f : Frame π} {fs : List (Frame π)} (hf : (s.thread t).frames = f :: fs) :
    (s.spawned cfg t h attr).hist.parent h = some f.task := by
  simp [State.spawned, State.put, State.spawn, State.enter, State.goto, State.setThread,
    State.setGroup, State.setTask, hf]

theorem spawned_unjoined : (s.spawned cfg t h attr).hist.unjoined =
    if (s.thread t).frames = [] then s.hist.unjoined else h :: s.hist.unjoined := by
  cases hf : (s.thread t).frames <;>
    simp [State.spawned, State.put, State.spawn, State.enter, State.goto, State.setThread,
      State.setGroup, State.setTask, History.enter, hf]

theorem State.Fresh.spawned {x : Handle} (hx : s.Fresh cfg x) (hne : x ≠ h)
    (hctl : (s.thread t).ctl = .functor) : (s.spawned cfg t h attr).Fresh cfg x := by
  have hentries : (s.spawned cfg t h attr).hist.entries x = s.hist.entries x := by
    funext st
    simp [State.spawned, State.put, State.spawn, State.enter, State.goto, State.setThread,
      State.setGroup, State.setTask, History.enter, hne.symm]
  refine ⟨by rw [hentries, hx.idle], ?_, fun u hu => ?_⟩
  · rw [spawned_unjoined]
    split
    · exact hx.joined
    · simpa [hne] using hx.joined
  · rw [spawned_thread hctl]
    exact hx.unawaited u hu

theorem reachable_spawned (hcfg : cfg.SingleFifo) (hr : (system cfg).Reachable (Levelled cfg) s)
    (ht : t ≤ cfg.numThreads) (hctl : (s.thread t).ctl = .functor)
    (hattr : attr.queueNumber = queueCurrentThread)
    (hd : Levelled cfg s ⟨t, .spawn h attr 0⟩) :
    (system cfg).Reachable (Levelled cfg) (s.spawned cfg t h attr) := by
  have hspawn : step cfg s ⟨t, .spawn h attr 0⟩ = some (s.spawn t h attr 0 0) := by
    simp [step, ht, hctl, call, hattr, hcfg.queueNumber, hcfg.numQueues]
  have hput : tick cfg (s.spawn t h attr 0 0) t 0 = some (s.spawned cfg t h attr) := by
    have hspawning : ((s.spawn t h attr 0 0).thread t).ctl = .spawning h 0 := goto_ctl _ _ _
    simp only [tick, hspawning, State.spawned]
  exact reachable_tick ht (hr.step hd hspawn) hput

end Spawned


/-! ### Taking a task -/

/-- After the worker has taken `x` at `p` and started it. -/
def State.begun (s : State π) (p : Point π) (x : Handle) (rest : List Handle) : State π :=
  ((s.take 0 p 0 x rest).goto 0 (.starting p x)).start 0 p x

section Begun

variable {p : Point π} {x : Handle} {rest : List Handle}

@[simp] theorem goto_begun (c : Ctl π) : (s.goto 0 c).begun p x rest = s.begun p x rest := by
  simp [State.begun, State.start, State.enter, State.take, State.goto, State.setThread]

theorem begun_thread : (s.begun p x rest).thread =
    Function.update s.thread 0 ⟨⟨x, p⟩ :: (s.thread 0).frames, .functor, (s.task x).toCopy⟩ := by
  simp [State.begun, State.start, State.enter, State.take, State.goto, State.setThread]

theorem begun_queue : (s.begun p x rest).queue 0 = rest := by
  simp [State.begun, State.start, State.enter, State.take, State.goto, State.setThread]

theorem State.Fresh.begun {h : Handle} (hh : s.Fresh cfg h) (hp : p.awaited ≠ some h) :
    (s.begun p x rest).Fresh cfg h := by
  refine ⟨?_, hh.joined, fun t ht hmem => hh.unawaited t ht (Thread.mem_awaited.mpr ?_)⟩
  · simpa [State.begun, State.start, State.enter, State.take, State.goto, State.setThread,
      History.enter] using hh.idle
  · rw [begun_thread] at hmem
    by_cases ht0 : t = 0
    · subst ht0
      rw [Function.update_self, Thread.mem_awaited] at hmem
      rcases hmem with hawaited | ⟨g, hg, hawaited⟩
      · simp [Ctl.awaited, Ctl.point] at hawaited
      · rcases List.mem_cons.mp hg with rfl | hg
        · exact absurd hawaited hp
        · exact .inr ⟨g, hg, hawaited⟩
    · rw [Function.update_of_ne ht0] at hmem
      exact Thread.mem_awaited.mp hmem

/-- A test that finds the event incomplete changes nothing. -/
theorem test_of_incomplete {h : Handle}
    (hh : (s.task h).testingCompl.eventState = activeIncomplete) :
    s.test h .incomplete = (s, .inr false) := by
  simp [State.test, EventBase.test, hh, State.setTask]

/-- A point at which the worker looks for any task and is not done. -/
def State.OpenAt (s : State π) (p : Point π) : Prop :=
  p = .work ∨ ∃ current c, p = .wait current c ∧
    (s.task c).testingCompl.eventState = activeIncomplete

/-- The single worker takes what is queued first. -/
theorem tick_take (hcfg : cfg.SingleFifo) {n : Word} (hp : s.OpenAt p)
    (hctl : (s.thread 0).ctl = .seeking p n (.visit 0)) (hqueue : s.queue 0 = x :: rest) :
    tick cfg s 0 0 = some (s.take 0 p 0 x rest) := by
  have hget : testAndGet cfg.policy true 0 (p.predicate cfg s) (s.queue 0) = some (x, rest) := by
    rw [hqueue, hcfg.policy]
    rcases hp with rfl | ⟨current, c, rfl, -⟩ <;>
      simp [testAndGet, position, Point.predicate, hcfg.policy, Policy.waitingPred,
        Policy.regularPred]
  have hlegit : LegitTop cfg.policy (compareTaskPtr cfg s) (s.queue 0) 0 := by
    simp [LegitTop, hcfg.policy]
  simp only [tick, hctl, seek, hcfg.numQueues, hcfg.queueNumber]
  simp [hget, hlegit]

theorem reachable_begun (hcfg : cfg.SingleFifo) (hr : (system cfg).Reachable (Levelled cfg) s)
    (hctl : (s.thread 0).ctl = getTask cfg p) (hp : s.OpenAt p) (hqueue : s.queue 0 = x :: rest) :
    (system cfg).Reachable (Levelled cfg) (s.begun p x rest) := by
  let u := s.goto 0 (.seeking p (cfg.taskMaxAttempts - 1) (.visit 0))
  have htested : tested cfg p cfg.taskMaxAttempts .loop false =
      some (.seeking p (cfg.taskMaxAttempts - 1) (.visit 0)) := if_pos hcfg.attempts
  have htest : tick cfg s 0 0 = some u := by
    simp only [tick, hctl, getTask, seek]
    rcases hp with rfl | ⟨current, c, rfl, hc⟩
    · simp only [htested, Option.map_some, u]
    · simp only [test_of_incomplete hc, htested, Option.map_some, u]
  have htake : tick cfg u 0 0 = some (u.take 0 p 0 x rest) :=
    tick_take hcfg hp (goto_ctl _ _ _) hqueue
  let v := (u.take 0 p 0 x rest).goto 0 (.starting p x)
  have htook : tick cfg (u.take 0 p 0 x rest) 0 0 = some v := by
    have htaken : ((u.take 0 p 0 x rest).thread 0).ctl = found x p := goto_ctl _ _ _
    rcases hp with rfl | ⟨current, c, rfl, hc⟩
    · simp only [tick, htaken, found, v]
    · simp only [tick, htaken, found]
      rw [test_of_incomplete (s := u.take 0 _ 0 x rest) hc]
  have hstart : tick cfg v 0 0 = some (u.begun p x rest) := by
    have hstarting : (v.thread 0).ctl = .starting p x := goto_ctl _ _ _
    simp only [tick, hstarting]
    rfl
  have hr₁ := reachable_tick (Nat.zero_le _) hr htest
  have hr₂ := reachable_tick (Nat.zero_le _) hr₁ htake
  have hr₃ := reachable_tick (Nat.zero_le _) hr₂ htook
  have hr₄ := reachable_tick (Nat.zero_le _) hr₃ hstart
  rwa [goto_begun] at hr₄

end Begun

/-! ### The worker at work -/

/-- The worker runs the task on top of `frames`, the tasks of `queue` are queued and the handles
from `n` on are unused. -/
structure State.Running (cfg : Config π) (s : State π) (frames : List (Frame π))
    (queue : List Handle) (n : ℕ) : Prop where
  reachable : (system cfg).Reachable (Levelled cfg) s
  ctl : (s.thread 0).ctl = .functor
  frames : (s.thread 0).frames = frames
  queue : s.queue 0 = queue
  fresh : ∀ h, n ≤ h → s.Fresh cfg h
  levels : ∀ h, (s.task h).attr.level ≤ 2

/-- A child that its parent may wait for. -/
structure State.Awaitable (s : State π) (c a : Handle) : Prop where
  parent : s.hist.parent c = some a
  unjoined : c ∈ s.hist.unjoined
  isNested : (s.task c).attr.isNested
  incomplete : (s.task c).testingCompl.eventState = activeIncomplete

/-- The task on top spawns a child. -/
theorem State.Running.spawn_child (hcfg : cfg.SingleFifo) {f : Frame π} {fs : List (Frame π)}
    {queue : List Handle} {n : ℕ} (hs : s.Running cfg (f :: fs) queue n)
    (hf : (s.task f.task).attr.level ≤ 1) :
    ∃ s' : State π, s'.Running cfg (f :: fs) (queue ++ [n]) (n + 1) ∧ s'.Awaitable n f.task ∧
      (s'.task n).attr.level = (s.task f.task).attr.level + 1 ∧
      ∀ h ≠ n, (s'.task h).attr = (s.task h).attr := by
  let attr : Attribute π :=
    { Attribute.new cfg.lowest true false with level := (s.task f.task).attr.level + 1 }
  let s' := s.spawned cfg 0 n attr
  have hfresh := hs.fresh n le_rfl
  have hd : Levelled cfg s ⟨0, .spawn n attr 0⟩ := by
    refine ⟨⟨hfresh.idle, hfresh.unawaited⟩, ?_⟩
    simp only [hs.frames]
    exact ⟨hfresh.joined, rfl, rfl, rfl⟩
  have hr : (system cfg).Reachable (Levelled cfg) s' :=
    reachable_spawned hcfg hs.reachable (Nat.zero_le _) hs.ctl rfl hd
  have hself : (s'.task n).attr = attr := by rw [spawned_attr, if_pos rfl]
  have hkept : ∀ h ≠ n, (s'.task h).attr = (s.task h).attr := fun h hh => by
    rw [spawned_attr, if_neg hh]
  refine ⟨s', ⟨hr, ?_, ?_, ?_, ?_, ?_⟩, ⟨spawned_parent hs.frames, ?_, ?_, ?_⟩, by rw [hself],
    hkept⟩
  · rw [spawned_thread hs.ctl, hs.ctl]
  · rw [spawned_thread hs.ctl, hs.frames]
  · rw [spawned_queue hcfg, hs.queue]
  · exact fun h hh => (hs.fresh h (Nat.le_of_succ_le hh)).spawned (Nat.ne_of_gt hh) hs.ctl
  · intro h
    by_cases hh : h = n
    · rw [hh, hself]
      exact Nat.succ_le_succ hf
    · rw [hkept h hh]
      exact hs.levels h
  · simp [s', spawned_unjoined, hs.frames]
  · rw [hself]
    rfl
  · rw [spawned_task, if_pos rfl]
    exact Task.spawn_testingCompl _ _ _ rfl

/-- The task on top waits, and the task that was put first is run on top of it. -/
theorem State.Running.wait_child (hcfg : cfg.SingleFifo) {f : Frame π} {fs : List (Frame π)}
    {x c : Handle} {queue : List Handle} {n : ℕ} (hs : s.Running cfg (f :: fs) (x :: queue) n)
    (hc : s.Awaitable c f.task) (hlt : c < n) :
    ∃ (s' : State π) (p : Point π), s'.Running cfg (⟨x, p⟩ :: f :: fs) queue n ∧
      ∀ h, (s'.task h).attr = (s.task h).attr := by
  let p : Point π := .wait (s.thread 0).cache c
  have hwait : step cfg s ⟨0, .wait c⟩ = some (s.goto 0 (getTask cfg p)) := by
    simp [step, hs.ctl, call, hc.isNested, hcfg.numThreads, p]
  have hd : Levelled cfg s ⟨0, .wait c⟩ := by
    refine ⟨trivial, ?_⟩
    simp only [hs.frames]
    exact ⟨hc.unjoined, hc.parent⟩
  have hr : (system cfg).Reachable (Levelled cfg) ((s.goto 0 (getTask cfg p)).begun p x queue) :=
    reachable_begun hcfg (hs.reachable.step hd hwait) (goto_ctl _ _ _)
      (.inr ⟨_, c, rfl, hc.incomplete⟩) hs.queue
  rw [goto_begun] at hr
  refine ⟨s.begun p x queue, p, ⟨hr, ?_, ?_, begun_queue, ?_, hs.levels⟩, fun _ => rfl⟩
  · rw [begun_thread, Function.update_self]
  · rw [begun_thread, Function.update_self, hs.frames]
  · intro h hh
    refine (hs.fresh h hh).begun fun heq => ?_
    cases heq
    exact absurd hlt (Nat.not_lt.mpr hh)

/-! ### The climb -/

theorem fresh_initial (h : Handle) : (initial cfg).Fresh cfg h := by
  refine ⟨rfl, by simp [initial], fun t _ hmem => ?_⟩
  rcases Thread.mem_awaited.mp hmem with hawaited | ⟨g, hg, -⟩
  · by_cases ht : t = cfg.numThreads <;>
      simp [initial, ht, getTask, Ctl.awaited, Ctl.point, Point.awaited] at hawaited
  · cases hg

/-- The main thread has spawned the root, and the worker runs it. -/
theorem exists_root (hcfg : cfg.SingleFifo) : ∃ (s : State π) (f : Frame π),
    s.Running cfg [f] [] 1 ∧ f.task = 0 ∧ (s.task f.task).attr.level = 0 := by
  let attr : Attribute π := .new cfg.lowest false false
  let s₁ := (initial cfg).spawned cfg 1 0 attr
  have hmain : ((initial cfg).thread 1).ctl = .functor := by simp [initial, hcfg.numThreads]
  have hd : Levelled cfg (initial cfg) ⟨1, .spawn 0 attr 0⟩ :=
    ⟨⟨rfl, (fresh_initial 0).unawaited⟩, by simp [initial], rfl⟩
  have hr₁ : (system cfg).Reachable (Levelled cfg) s₁ :=
    reachable_spawned hcfg .initial hcfg.numThreads.ge hmain rfl hd
  have hworker : (s₁.thread 0).ctl = getTask cfg .work := by
    rw [spawned_thread hmain]
    simp [initial, hcfg.numThreads]
  have hqueue : s₁.queue 0 = [0] := by
    rw [spawned_queue hcfg]
    simp [initial]
  have hr : (system cfg).Reachable (Levelled cfg) (s₁.begun .work 0 []) :=
    reachable_begun hcfg hr₁ hworker (.inl rfl) hqueue
  have hlevel : ∀ h, ((s₁.begun .work 0 []).task h).attr.level = 0 := by
    intro h
    change (s₁.task h).attr.level = 0
    rw [spawned_attr]
    split <;> rfl
  refine ⟨s₁.begun .work 0 [], ⟨0, .work⟩, ⟨hr, ?_, ?_, begun_queue, ?_, ?_⟩, rfl, hlevel 0⟩
  · rw [begun_thread, Function.update_self]
  · rw [begun_thread, Function.update_self, spawned_thread hmain]
    rfl
  · intro h hh
    have hne : h ≠ 0 := by omega
    exact ((fresh_initial h).spawned hne hmain).begun (by simp [Point.awaited])
  · intro h
    rw [hlevel]
    exact Nat.zero_le 2

/-- The root runs and has put `m` children. -/
theorem exists_siblings (hcfg : cfg.SingleFifo) (m : ℕ) :
    ∃ (s : State π) (f : Frame π) (queue : List Handle) (n : ℕ), s.Running cfg [f] queue n ∧
      f.task < n ∧ (s.task f.task).attr.level = 0 ∧ queue.length = m ∧
      ∀ x ∈ queue, x < n ∧ (s.task x).attr.level = 1 := by
  induction m with
  | zero =>
    obtain ⟨s, f, hs, hzero, hf⟩ := exists_root hcfg
    exact ⟨s, f, [], 1, hs, hzero ▸ Nat.zero_lt_one, hf, rfl, by simp⟩
  | succ m ih =>
    obtain ⟨s, f, queue, n, hs, hlt, hf, hlen, hlevel⟩ := ih
    obtain ⟨s', hs', -, hnew, hkept⟩ := hs.spawn_child hcfg (hf ▸ Nat.zero_le 1)
    refine ⟨s', f, queue ++ [n], n + 1, hs', Nat.lt_succ_of_lt hlt, ?_, by simp [hlen], ?_⟩
    · rw [hkept f.task hlt.ne, hf]
    · intro x hx
      rcases List.mem_append.mp hx with hx | hx
      · obtain ⟨hxn, hx₁⟩ := hlevel x hx
        exact ⟨Nat.lt_succ_of_lt hxn, by rw [hkept x hxn.ne, hx₁]⟩
      · obtain rfl := List.mem_singleton.mp hx
        exact ⟨Nat.lt_succ_self _, by rw [hnew, hf]⟩

/-- The task on top spawns a child and waits for it, and the sibling put first is run. -/
theorem State.Running.climb (hcfg : cfg.SingleFifo) {f : Frame π} {fs : List (Frame π)}
    {siblings others : List Handle} {n : ℕ} (hs : s.Running cfg (f :: fs) (siblings ++ others) n)
    (hf : (s.task f.task).attr.level ≤ 1)
    (hlevel : ∀ x ∈ siblings, x < n ∧ (s.task x).attr.level = 1) :
    ∃ (s' : State π) (frames : List (Frame π)) (queue : List Handle) (n' : ℕ),
      s'.Running cfg frames queue n' ∧ frames.length = (f :: fs).length + siblings.length := by
  induction siblings generalizing s f fs others n with
  | nil => exact ⟨s, _, _, n, hs, rfl⟩
  | cons x siblings ih =>
    obtain ⟨s₁, hs₁, hchild, -, hkept₁⟩ := hs.spawn_child hcfg hf
    have hqueue : s₁.Running cfg (f :: fs) (x :: (siblings ++ (others ++ [n]))) (n + 1) := by
      simpa using hs₁
    obtain ⟨s₂, p, hs₂, hkept₂⟩ := hqueue.wait_child hcfg hchild n.lt_succ_self
    have hkept : ∀ y < n, (s₂.task y).attr = (s.task y).attr := by
      intro y hy
      rw [hkept₂, hkept₁ y (Nat.ne_of_lt hy)]
    obtain ⟨hxn, hx⟩ := hlevel x (by simp)
    obtain ⟨s', frames, queue, n', hs', hlen⟩ := ih hs₂ (by rw [hkept x hxn, hx]) (by
      intro y hy
      obtain ⟨hyn, hy₁⟩ := hlevel y (by simp [hy])
      exact ⟨Nat.lt_succ_of_lt hyn, by rw [hkept y hyn, hy₁]⟩)
    refine ⟨s', frames, queue, n', hs', ?_⟩
    rw [hlen]
    simp only [List.length_cons]
    omega

/-- Under `fifoS` the stack of a single worker has no bound in terms of the depth of the program:
it grows to any height though no level is higher than 2. -/
theorem fifo_stack_unbounded (hcfg : cfg.SingleFifo) (n : ℕ) :
    ∃ s : State π, (system cfg).Reachable (Levelled cfg) s ∧
      (∀ h, (s.task h).attr.level ≤ 2) ∧ n < (s.thread 0).stack.length := by
  obtain ⟨s, f, queue, m, hs, -, hf, hlen, hlevel⟩ := exists_siblings hcfg n
  have hqueue : s.Running cfg [f] (queue ++ []) m := by simpa using hs
  obtain ⟨s', frames, queue', m', hs', hlen'⟩ := hqueue.climb hcfg (hf ▸ Nat.zero_le 1) hlevel
  refine ⟨s', hs'.reachable, hs'.levels, ?_⟩
  have hstack : (s'.thread 0).stack.length = frames.length := by
    simp [Thread.stack, hs'.ctl, Ctl.hand, hs'.frames]
  rw [hstack, hlen', hlen]
  simp

theorem fifo_stack_unbounded_small :
    (Config.small .fifoS [1]).SingleFifo ∧ ∃ s : State ℕ,
      (system (.small .fifoS [1])).Reachable (Levelled (.small .fifoS [1])) s ∧
        (∀ h, (s.task h).attr.level ≤ 2) ∧ 100 < (s.thread 0).stack.length :=
  have hcfg : (Config.small .fifoS [1]).SingleFifo := ⟨rfl, rfl, by decide⟩
  ⟨hcfg, fifo_stack_unbounded hcfg 100⟩

end PFunc.TaskManager
