import PFunc.Progress

/-!
# Levels and the front of a deque

Under `cilkS` a waiting worker takes a task whose level is not below that of the task it
suspends, and of its own deque it examines the task put last. Neither blocks it in a
fork-join run whose main thread puts one root, or only roots that do not get in front of
deeper tasks.
-/

namespace PFunc.TaskManager

open LabelledRuns Atomics Event QueueSet

variable {π : Type} {cfg : Config π} {s s' : State π}
variable {root : State π → Attribute π → Prop} {rel : Attribute π → Attribute π → Prop}

/-- A step that puts a task from outside puts it only in front of tasks related to it by `K`. -/
def PutsBefore (K : Attribute π → Attribute π → Prop) (s : State π) (l : Label π) : Prop :=
  match (s.thread l.thread).frames, (s.thread l.thread).ctl with
  | [], .spawning h q => ∀ c ∈ s.queue q, K (s.task h).attr (s.task c).attr
  | _, _ => True

instance (K : Attribute π → Attribute π → Prop) [DecidableRel K] (s : State π) (l : Label π) :
    Decidable (PutsBefore K s l) := by
  unfold PutsBefore
  rcases (s.thread l.thread).frames with ⟨⟩ <;> rcases (s.thread l.thread).ctl with ⟨⟩ <;>
    infer_instance

/-- Tasks put later come first, those from outside in front of tasks related by `K`. -/
def State.Layered (K : Attribute π → Attribute π → Prop) (s : State π) : Prop :=
  ∀ q, (s.queue q).Pairwise fun f c => s.hist.born c < s.hist.born f ∧
    (s.hist.parent f = none → K (s.task f).attr (s.task c).attr)

namespace Effect

variable {l : Label π}

/-- Queues change by a `put` and when a task is taken. -/
theorem queue_cases (he : Effect cfg s l s') :
    (s'.queue = s.queue ∧ s'.hist.parent = s.hist.parent ∧ s'.hist.born = s.hist.born ∧
        s'.hist.clock = s.hist.clock) ∨
      (∃ h q, (s.thread l.thread).ctl = .spawning h q ∧ s' = s.put cfg l.thread h q) ∨
      ∃ p i top h rest, i < cfg.numQueues ∧
        testAndGet cfg.policy (i == cfg.queueNumber l.thread) top (p.predicate cfg s)
          (s.queue i) = some (h, rest) ∧ s' = s.take l.thread p i h rest := by
  cases he with
  | put h q hact hc => exact .inr (.inl ⟨h, q, hc, rfl⟩)
  | take p n k i top h rest hc hi hact hk hik htop hget => exact .inr (.inr ⟨p, i, top, h, rest, hi, hget, rfl⟩)
  | leave h hc => exact .inl (by simp)
  | _ => exact .inl ⟨rfl, rfl, rfl, rfl⟩

/-- No step changes the attribute of a task that is queued or on a stack. -/
theorem attr_of_active (hr : (system cfg).Reachable (Respawn cfg) s) (hd : Respawn cfg s l)
    (he : Effect cfg s l s') {h : Handle} (hactive : s.toStacks.Active h) :
    (s'.task h).attr = (s.task h).attr := by
  refine congrArg Copy.attr (he.toCopy ?_)
  intro attr g hact
  simp only [Respawn, hact] at hd
  exact not_active_of_idle hr hd.1 hactive

end Effect

section Layered

variable {K : Attribute π → Attribute π → Prop}

theorem State.Layered.put (hp : cfg.policy = .cilkS) (hs : s.Layered K) {t : ℕ} {h : Handle}
    {q : ℕ} (hnew : ∀ q, h ∉ s.queue q) (hborn : ∀ q, ∀ c ∈ s.queue q, s.hist.born c < s.hist.clock)
    (hK : (s.thread t).frames = [] → ∀ c ∈ s.queue q, K (s.task h).attr (s.task c).attr) :
    (s.put cfg t h q).Layered K := by
  have hold : ∀ q', (s.queue q').Pairwise fun f c =>
      (s.put cfg t h q).hist.born c < (s.put cfg t h q).hist.born f ∧
        ((s.put cfg t h q).hist.parent f = none → K (s.task f).attr (s.task c).attr) := by
    intro q'
    refine (hs q').imp_of_mem ?_
    intro f c hf hc hfc
    have hfh : f ≠ h := fun he => hnew q' (he ▸ hf)
    have hch : c ≠ h := fun he => hnew q' (he ▸ hc)
    simpa [State.put, State.goto, State.setThread, History.enter, hfh, hch] using hfc
  intro q'
  by_cases hq : q' = q
  · subst hq
    have hqueue : (s.put cfg t h q').queue q' = h :: s.queue q' := by
      simp [State.put, State.goto, State.setThread, QueueSet.put, hp]
    rw [hqueue, List.pairwise_cons]
    refine ⟨?_, hold q'⟩
    intro c hc
    have hch : c ≠ h := fun he => hnew q' (he ▸ hc)
    constructor
    · simpa [State.put, State.goto, State.setThread, History.enter, hch] using hborn q' c hc
    · intro hnone
      refine hK ?_ c hc
      simpa [State.put, State.goto, State.setThread, History.enter] using hnone
  · have hqueue : (s.put cfg t h q).queue q' = s.queue q' := Function.update_of_ne hq _ _
    rw [hqueue]
    exact hold q'

theorem layered_effect {l : Label π} (hp : cfg.policy = .cilkS)
    (hr : (system cfg).Reachable (ForkJoin cfg root rel) s) (hs : s.Layered K)
    (hd : ForkJoin cfg root rel s l) (hK : PutsBefore K s l) (hl : l.thread ≤ cfg.numThreads)
    (he : Effect cfg s l s') : s'.Layered K := by
  have hr' := respawn_of_forkJoin hr
  have hj := joined_reachable hr
  have hattr : ∀ q, ∀ c ∈ s.queue q, (s'.task c).attr = (s.task c).attr :=
    fun q c hc => he.attr_of_active hr' hd.1 (.inl ⟨q, hc⟩)
  rcases he.queue_cases with ⟨hq, hparent, hborn, -⟩ | ⟨h, q, hc, rfl⟩ |
    ⟨p, i, top, h, rest, -, hget, rfl⟩
  · intro q
    rw [hq, hparent, hborn]
    refine (hs q).imp_of_mem ?_
    intro f c hf hc hfc
    rwa [hattr q f hf, hattr q c hc]
  · refine hs.put hp ?_ ?_ ?_
    · intro q' hq'
      exact not_active_of_spawning hr' hl hc (.inl ⟨q', hq'⟩)
    · intro q' c hc
      exact hj.invariant.born_lt c (.inl ⟨q', hc⟩)
    · intro hf
      simpa [PutsBefore, hf, hc] using hK
  · intro q
    have hsub : ((s.take l.thread p i h rest).queue q).Sublist (s.queue q) := by
      by_cases hq : q = i
      · subst hq
        simpa [State.take, State.goto, State.setThread] using sublist_of_testAndGet hget
      · simp [State.take, State.goto, State.setThread, hq]
    exact (hs q).sublist hsub

/-- A layered deque does not block the workers that wait. -/
theorem not_deadlocked_of_layered (hp : cfg.policy = .cilkS)
    (hr : (system cfg).Reachable (ForkJoin cfg root rel) s) (hs : s.Layered K)
    (hlevel : ∀ a c, rel a c → a.level ≤ c.level)
    (hK : ∀ a f c, rel a c → K f c → a.level ≤ f.level) : ¬s.Deadlocked cfg := by
  intro hdead
  obtain ⟨hbusy, top, htop, hblocked⟩ := hdead
  have hj := joined_reachable hr
  obtain ⟨t, ht, a, c, hw, hc, hparent, hlater⟩ := deadlock_waiter hr hbusy hblocked
  -- the task at the front of the deque is too low for every worker of the deque that waits
  obtain ⟨f, rest, hf⟩ := List.exists_cons_of_ne_nil (List.ne_nil_of_mem hc)
  have hlow : ∀ t' < cfg.numThreads, cfg.queueNumber t' = cfg.queueNumber t → ∀ b c',
      s.WaitsFor t' b c' → (s.task f).attr.level < (s.task b).attr.level := by
    intro t' ht' hqueue b c' hw'
    obtain ⟨rest', hb⟩ := hw'.stack
    rcases blocked_cases hr ht' (hblocked t' ht' (by simp [hb])) with
      ⟨hnil, -⟩ | ⟨b', c'', hw'', -, hno⟩
    · rw [hb] at hnil
      cases hnil
    · obtain ⟨rest'', hb'⟩ := hw''.stack
      rw [hb] at hb'
      cases hb'
      have := hno _ (Config.queueNumber_lt ht') f (by simp [hp, position, hqueue, hf])
      simp only [Policy.waitingPred, hp, decide_eq_false_iff_not] at this
      omega
  have hactive : ∀ x ∈ s.queue (cfg.queueNumber t), s.toStacks.Active x :=
    fun x hx => .inl ⟨_, hx⟩
  have hrel : ∀ x p, x ∈ s.queue (cfg.queueNumber t) → s.hist.parent x = some p →
      rel (s.task p).attr (s.task x).attr :=
    fun x p hx hp => hj.invariant.value_rel x p (hactive x hx) hp
  have horder := hs (cfg.queueNumber t)
  rw [hf, List.pairwise_cons] at horder
  have hfmem : f ∈ s.queue (cfg.queueNumber t) := by simp [hf]
  have hfront : c = f ∨ c ∈ rest := by
    rw [hf] at hc
    exact List.mem_cons.mp hc
  have hle : s.hist.born c ≤ s.hist.born f := by
    rcases hfront with rfl | hrest
    · exact le_rfl
    · exact (horder.1 c hrest).1.le
  rcases hlater f hfmem hle with hnone | ⟨t', ht', b, c', hw', hqueue, hb⟩
  · have hlow' := hlow t ht rfl a c hw
    rcases hfront with rfl | hrest
    · rw [hparent] at hnone
      cases hnone
    · have := hK _ _ _ (hrel c a hc hparent) ((horder.1 c hrest).2 hnone)
      omega
  · have := hlow t' ht' hqueue b c' hw'
    have := hlevel _ _ (hrel f b hfmem hb)
    omega

theorem not_stuck_of_layered (hp : cfg.policy = .cilkS) (hpos : 0 < cfg.numThreads)
    (hr : (system cfg).Reachable (ForkJoin cfg root rel) s) (hs : s.Layered K)
    (hlevel : ∀ a c, rel a c → a.level ≤ c.level)
    (hK : ∀ a f c, rel a c → K f c → a.level ≤ f.level) : ¬s.Stuck cfg := by
  intro ⟨hincomplete, top, htop, hblocked⟩
  exact not_deadlocked_of_layered hp hr hs hlevel hK
    ⟨exists_stack hr hpos hincomplete htop hblocked, top, htop, fun t ht _ => hblocked t ht⟩

end Layered

/-! ### A single root -/

/-- The main thread spawns before anything was put. -/
def SingleRoot (s : State π) (_ : Attribute π) : Prop := s.hist.clock = 0

instance (s : State π) (attr : Attribute π) : Decidable (SingleRoot s attr) := by
  unfold SingleRoot
  infer_instance

/-- While the main thread is in `spawn_task` nothing was put yet. -/
theorem clock_eq_zero (hr : (system cfg).Reachable (ForkJoin cfg SingleRoot rel) s) {h : Handle}
    {q : ℕ} (hc : (s.thread cfg.numThreads).ctl = .spawning h q) : s.hist.clock = 0 := by
  refine hr.invariant' (I := fun s => ∀ h q, (s.thread cfg.numThreads).ctl = .spawning h q →
    s.hist.clock = 0) (fun _ _ _ => rfl) ?_ h q hc
  intro s l s' hr hs hd hstep h q hc
  obtain ⟨hl, he⟩ := step_effect hstep
  have hr' := respawn_of_forkJoin hr
  have hinv := (joined_reachable hr).invariant
  by_cases ht : l.thread = cfg.numThreads
  · have hnil := ((callStack_reachable hr' l.thread hl).main ht).1
    rw [← ht] at hc
    rcases he.ctl_spawning hc with rfl | ⟨attr, g, hact, rfl, -⟩
    · exact hs h q (ht ▸ hc)
    · have hd' := hd.2
      simp only [hact, hnil] at hd'
      exact hd'.2
  · rw [he.other (Ne.symm ht)] at hc
    have hzero := hs h q hc
    rcases he.queue_cases with ⟨-, -, -, hclock⟩ | ⟨h', q', hc', rfl⟩ |
      ⟨p, i, top, h', rest, -, hget, rfl⟩
    · rw [hclock]
      exact hzero
    · have hne := (callStack_reachable hr' l.thread hl).worker (by omega) (by rw [hc']; rfl)
      obtain ⟨f, fs, hf⟩ := List.exists_cons_of_ne_nil hne
      have hmem : f.task ∈ s.toStacks.stack l.thread := by
        simp [State.toStacks, Thread.stack, hf]
      have : s.hist.began f.task < s.hist.clock := hinv.began_lt f.task l.thread hmem
      omega
    · have : s.hist.born h' < s.hist.clock := hinv.born_lt h' (.inl ⟨i, mem_of_testAndGet hget⟩)
      omega

theorem putsBefore_of_singleRoot (hr : (system cfg).Reachable (ForkJoin cfg SingleRoot rel) s)
    {l : Label π} (hl : l.thread ≤ cfg.numThreads) : PutsBefore (fun _ _ => False) s l := by
  unfold PutsBefore
  split
  next h q hf hc =>
    intro c hmem
    have hr' := respawn_of_forkJoin hr
    have hmain : l.thread = cfg.numThreads := by
      rcases Nat.lt_or_eq_of_le hl with hlt | heq
      · exact absurd hf ((callStack_reachable hr' l.thread hl).worker hlt (by rw [hc]; rfl))
      · exact heq
    have hzero := clock_eq_zero hr (hmain ▸ hc)
    have : s.hist.born c < s.hist.clock :=
      (joined_reachable hr).invariant.born_lt c (.inl ⟨q, hmem⟩)
    omega
  next => trivial

theorem layered_of_singleRoot (hp : cfg.policy = .cilkS)
    (hr : (system cfg).Reachable (ForkJoin cfg SingleRoot rel) s) :
    s.Layered fun _ _ => False := by
  refine hr.invariant' (I := fun s => s.Layered fun _ _ => False) ?_ ?_
  · exact fun _ => .nil
  · intro s l s' hr hs hd hstep
    obtain ⟨hl, he⟩ := step_effect hstep
    exact layered_effect hp hr hs hd (putsBefore_of_singleRoot hr hl) hl he

/-- Under `lifoS` and `fifoS` a worker that waits takes any task. -/
theorem not_stuck_of_admitting (hp : cfg.policy = .lifoS ∨ cfg.policy = .fifoS)
    (hpos : 0 < cfg.numThreads) (hr : (system cfg).Reachable (ForkJoin cfg root rel) s) :
    ¬s.Stuck cfg := by
  intro hstuck
  obtain ⟨hincomplete, top, htop, hblocked⟩ := hstuck
  obtain ⟨t, ht, a, c, hw, hc, -⟩ := stuck_waiter hr hpos hincomplete htop hblocked
  obtain ⟨rest, ha⟩ := hw.stack
  have hqueue := Config.queueNumber_lt ht
  rcases blocked_cases hr ht (hblocked t ht) with ⟨hnil, -⟩ | ⟨b, c', -, -, hno⟩
  · rw [ha] at hnil
    cases hnil
  · obtain ⟨x, -, hx⟩ := exists_candidate (cfg.queueNumber t == cfg.queueNumber t)
      (List.ne_nil_of_mem hc) (htop _ hqueue)
    have hfalse := hno _ hqueue x hx
    rcases hp with hp | hp <;> simp [hp, Policy.waitingPred] at hfalse

/-- No state of a fork-join program with a single root is stuck, if no child has a level
below its parent's. -/
theorem single_root_not_stuck (hp : cfg.policy ≠ .prioS) (hpos : 0 < cfg.numThreads)
    (hr : (system cfg).Reachable (ForkJoin cfg SingleRoot fun a c => a.level ≤ c.level) s) :
    ¬s.Stuck cfg := by
  cases hpol : cfg.policy with
  | cilkS =>
    exact not_stuck_of_layered hpol hpos hr (layered_of_singleRoot hpol hr) (fun _ _ h => h)
      (fun _ _ _ _ h => h.elim)
  | lifoS => exact not_stuck_of_admitting (.inl hpol) hpos hr
  | fifoS => exact not_stuck_of_admitting (.inr hpol) hpos hr
  | prioS => exact absurd hpol hp

/-- The root waits for a child that is queued. -/
def waitRun : List (Label ℕ) :=
  [⟨2, .spawn 0 (.new 0 false false) 0⟩] ++ ticks 2 1 ++ ticks 0 4 ++
    [⟨0, .spawn 1 { Attribute.new 0 true false with level := 1 } 0⟩] ++ ticks 0 1 ++ [⟨0, .wait 1⟩]

theorem single_root_not_stuck_waitRun :
    ((system (.small .cilkS [1, 1])).final waitRun).queue 0 = [1] ∧
      ¬((system (.small .cilkS [1, 1])).final waitRun).Stuck (.small .cilkS [1, 1]) :=
  ⟨by decide, single_root_not_stuck (by decide) (by decide) (System.reachable_final (by decide))⟩

/-! ### Roots spawned at any time -/

/-- The main thread spawns tasks of the default level on its default queue. -/
def DefaultRoot (_ : State π) (attr : Attribute π) : Prop :=
  attr.level = defaultTaskLevel ∧ attr.queueNumber = queueCurrentThread

instance (s : State π) (attr : Attribute π) : Decidable (DefaultRoot s attr) := by
  unfold DefaultRoot
  infer_instance

/-- Every worker waits for an incomplete child, one of them for a queued one, and none
finds a task. -/
structure State.WaitersStuck (cfg : Config π) (s : State π) : Prop where
  waits : ∀ t < cfg.numThreads, ∃ a c, s.WaitsFor t a c ∧
    (s.task c).testingCompl.eventState = activeIncomplete
  queued : ∃ t < cfg.numThreads, ∃ a c, s.WaitsFor t a c ∧ ∃ q < cfg.numQueues, c ∈ s.queue q
  blocked : ∃ top : ℕ → ℕ,
    (∀ q < cfg.numQueues, LegitTop cfg.policy (compareTaskPtr cfg s) (s.queue q) (top q)) ∧
    ∀ t < cfg.numThreads, s.Blocked cfg top t

/-- Roots spawned at any time block no waiting worker, if none is put in front of a task more
than one level below it. -/
theorem roots_not_stuck (hp : cfg.policy = .cilkS)
    (hr : (system cfg).Reachable (fun s l =>
      ForkJoin cfg DefaultRoot (fun a c => c.level = a.level + 1) s l ∧
        PutsBefore (fun f c => c.level ≤ f.level + 1) s l) s) : ¬s.WaitersStuck cfg := by
  have hfork : (system cfg).Reachable
      (ForkJoin cfg DefaultRoot fun a c => c.level = a.level + 1) s := hr.mono fun _ _ hd => hd.1
  have hlayered : s.Layered fun f c => c.level ≤ f.level + 1 := by
    refine hr.invariant' (I := fun s => s.Layered fun f c => c.level ≤ f.level + 1) ?_ ?_
    · exact fun _ => .nil
    · intro s l s' hr hs hd hstep
      obtain ⟨hl, he⟩ := step_effect hstep
      exact layered_effect hp (hr.mono fun _ _ hd => hd.1) hs hd.1 hd.2 hl he
  intro hstuck
  obtain ⟨t, ht, a, c, -, q, -, hc⟩ := hstuck.queued
  have hincomplete := (active_iff (respawn_of_forkJoin hfork) c).mp (.inl ⟨q, hc⟩)
  refine not_stuck_of_layered hp (by omega) hfork hlayered ?_ ?_ ⟨⟨c, hincomplete⟩, hstuck.blocked⟩
  · intro a c h
    omega
  · intro a f c h h'
    omega

/-- A second root is put while a child of the first one is queued. -/
def rootsRun : List (Label ℕ) :=
  [⟨1, .spawn 0 (.new 0 false false) 0⟩] ++ ticks 1 1 ++ ticks 0 4 ++
    [⟨0, .spawn 1 { Attribute.new 0 true false with level := 1 } 0⟩] ++ ticks 0 1 ++
    [⟨1, .spawn 3 (.new 0 false false) 0⟩] ++ ticks 1 1 ++ [⟨0, .wait 1⟩]

theorem roots_not_stuck_rootsRun :
    ((system (.small .cilkS [1])).final rootsRun).queue 0 = [3, 1] ∧
      ¬((system (.small .cilkS [1])).final rootsRun).WaitersStuck (.small .cilkS [1]) :=
  ⟨by decide, roots_not_stuck (by decide) (System.reachable_final (by decide))⟩

/-- A root is put in front of the child that a task of level one is about to wait for. -/
def outrunRun : List (Label ℕ) :=
  [⟨1, .spawn 0 (.new 0 false false) 0⟩] ++ ticks 1 1 ++ ticks 0 4 ++
    [⟨0, .spawn 1 { Attribute.new 0 true false with level := 1 } 0⟩] ++ ticks 0 1 ++
    [⟨0, .wait 1⟩] ++ ticks 0 4 ++
    [⟨0, .spawn 2 { Attribute.new 0 true false with level := 2 } 0⟩] ++ ticks 0 1 ++
    [⟨1, .spawn 3 (.new 0 false false) 0⟩] ++ ticks 1 1 ++ [⟨0, .wait 2⟩]

theorem roots_stuck_outrunRun :
    (system (.small .cilkS [1])).Reachable
        (ForkJoin (.small .cilkS [1]) DefaultRoot fun a c => c.level = a.level + 1)
        ((system (.small .cilkS [1])).final outrunRun) ∧
      ((system (.small .cilkS [1])).final outrunRun).WaitersStuck (.small .cilkS [1]) := by
  refine ⟨System.reachable_final (by decide), ?_, ?_, ?_⟩
  · intro t ht
    obtain rfl : t = 0 := Nat.lt_one_iff.mp ht
    exact ⟨1, 2, by decide, by decide⟩
  · exact ⟨0, by decide, 1, 2, by decide, 0, by decide, by decide⟩
  · exact ⟨fun _ => 0, by decide, by decide⟩

end PFunc.TaskManager
