import PFunc.Continuations
import PFunc.Priorities

/-!
# Completion of fork-join programs

From every state of a fork-join program that never gets stuck the workers can complete all tasks
that were put, without another spawn. A worker that is not blocked comes nearer to the end by its
own steps alone, and as long as a task is incomplete some worker is not blocked.
-/

namespace PFunc.TaskManager

open LabelledRuns Atomics Event QueueSet Finset

variable {π : Type} {cfg : Config π} {s s' : State π} {l : Label π}
variable {root : State π → Attribute π → Prop} {rel : Attribute π → Attribute π → Prop}

/-! ### Workers do not poll -/

def Ctl.polls : Ctl π → Bool
  | .polling _ _ => true
  | _ => false

@[simp] theorem goto_ctl (s : State π) (t : ℕ) (c : Ctl π) : ((s.goto t c).thread t).ctl = c := by
  simp [State.goto, State.setThread]

theorem goto_polls {t : ℕ} {c : Ctl π} : ((s.goto t c).thread t).ctl.polls = c.polls := by
  rw [goto_ctl]

theorem tested_polls {p : Point π} {n : Word} {site : Site} {b : Bool} {c : Ctl π}
    (h : tested cfg p n site b = some c) : c.polls = false := by
  rcases tested_spec h with ⟨_, _, rfl, -⟩ | ⟨_, _, -, -, rfl⟩ <;> rfl

theorem seek_polls {t top : ℕ} {p : Point π} {n : Word} {sk : Seek}
    (h : seek cfg s t p n top sk = some s') : (s'.thread t).ctl.polls = false := by
  unfold seek at h
  split at h
  · split at h
    · dsimp only at h
      split at h
      · cases h
        exact goto_polls
      · obtain ⟨c, hc, rfl⟩ := Option.map_eq_some_iff.mp h
        exact goto_polls.trans (tested_polls hc)
    · obtain ⟨c, hc, rfl⟩ := Option.map_eq_some_iff.mp h
      exact goto_polls.trans (tested_polls hc)
  · split at h
    · dsimp only at h
      split at h
      · split at h
        · cases h
          cases p <;> exact goto_polls
        · cases h
          exact goto_polls
      · cases h
    · cases h
      cases p <;> exact goto_polls

theorem tick_polls {t top : ℕ} (h : tick cfg s t top = some s')
    (hnot : (s.thread t).ctl.polls = false) : (s'.thread t).ctl.polls = false := by
  unfold tick at h
  split at h
  case h_1 => cases h
  case h_2 =>
    cases h
    exact goto_polls
  case h_3 hc => simp [hc, Ctl.polls] at hnot
  case h_4 => exact seek_polls h
  case h_5 =>
    split at h
    · dsimp only at h
      split at h <;> cases h <;> exact goto_polls
    · cases h
      exact goto_polls
  case h_6 =>
    cases h
    simp [State.start, State.enter, State.setThread, Ctl.polls]
  case h_7 f hc =>
    cases h
    cases hq : f.point <;>
      simp [State.notify, State.enter, State.setTask, State.setThread, resume, getTask, hq,
        Ctl.polls]
  case h_8 =>
    cases h
    simp [Ctl.polls]
  case h_9 => split at h <;> cases h <;> exact goto_polls

/-- Only a `wait` of the main thread polls. -/
theorem call_polls {t : ℕ} {act : Act π} (h : call cfg s t act = some s')
    (ht : t ≠ cfg.numThreads) (hnot : (s.thread t).ctl.polls = false) :
    (s'.thread t).ctl.polls = false := by
  cases act with
  | spawn x attr g =>
    simp only [call, Option.ite_none_right_eq_some] at h
    obtain ⟨-, h⟩ := h
    cases h
    exact goto_polls
  | wait x =>
    simp only [call, if_neg ht, Option.ite_none_right_eq_some] at h
    obtain ⟨-, h⟩ := h
    cases h
    exact goto_polls
  | barrier =>
    simp only [call, barrier, Option.ite_none_right_eq_some] at h
    obtain ⟨-, h⟩ := h
    split at h
    · cases h
    · split at h
      · cases h
        refine goto_polls.trans ?_
        split <;> rfl
      · cases h
        exact hnot
  | ret =>
    simp only [call] at h
    split at h <;> cases h
    simp [State.ret, State.enter, State.setThread, Ctl.polls]
  | tick => cases h

theorem step_polls (h : step cfg s l = some s') (hl : l.thread < cfg.numThreads)
    (hnot : (s.thread l.thread).ctl.polls = false) : (s'.thread l.thread).ctl.polls = false := by
  simp only [step, hl.le, if_true] at h
  split at h
  · exact tick_polls h hnot
  · split at h
    · exact call_polls h hl.ne hnot
    · cases h

theorem not_polls {D : State π → Label π → Prop} (hr : (system cfg).Reachable D s) {t : ℕ}
    (ht : t < cfg.numThreads) : (s.thread t).ctl.polls = false := by
  refine hr.invariant' (I := fun s => ∀ t < cfg.numThreads, (s.thread t).ctl.polls = false)
    ?_ ?_ t ht
  · intro t ht
    simp [system, initial, ht.ne, getTask, Ctl.polls]
  intro s l s' hr hs _ hstep t ht
  by_cases htl : t = l.thread
  · subst htl
    exact step_polls hstep ht (hs _ ht)
  · rw [(step_effect hstep).2.other htl]
    exact hs t ht

/-! ### What is waited for -/

theorem task_of_waitPairs {awaited : Option Handle} {fs : List (Frame π)} {p h : Handle}
    (hw : (p, h) ∈ waitPairs awaited fs) : p ∈ fs.map (·.task) := by
  induction fs generalizing awaited with
  | nil => cases hw
  | cons f fs ih =>
    rcases List.mem_append.mp hw with hw | hw
    · obtain ⟨_, -, heq⟩ := List.mem_map.mp hw
      cases heq
      exact List.mem_cons_self
    · exact List.mem_cons_of_mem _ (ih hw)

/-- Children that were put and not joined can be waited for, and who waits has not joined. -/
structure State.Owed (cfg : Config π) (s : State π) : Prop where
  nested : ∀ c ∈ s.hist.unjoined, (s.task c).attr.isNested
  awaited : ∀ t < cfg.numThreads, ∀ p h, (p, h) ∈ (s.thread t).waitPairs → h ∈ s.hist.unjoined

theorem nested_step (hr : (system cfg).Reachable (ForkJoin cfg root rel) s)
    (hd : ForkJoin cfg root rel s l) (hl : l.thread ≤ cfg.numThreads) (hs : s.Owed cfg)
    (he : Effect cfg s l s') {c : Handle} (hc : c ∈ s'.hist.unjoined) :
    (s'.task c).attr.isNested := by
  have hold : c ∈ s.hist.unjoined → (s'.task c).attr.isNested := by
    intro hmem
    have hcopy : (s'.task c).toCopy = (s.task c).toCopy := by
      refine he.toCopy fun attr g hact => ?_
      have hd' := hd.2
      cases hf : (s.thread l.thread).frames with
      | nil =>
        simp only [hact, hf] at hd'
        exact hd'.1 hmem
      | cons f fs =>
        simp only [hact, hf] at hd'
        exact hd'.1 hmem
    rw [congrArg Copy.attr hcopy]
    exact hs.nested c hmem
  rcases unjoined_subset he hc with hmem | ⟨q, hspawning, rfl⟩
  · exact hold hmem
  · have hnested : (system cfg).Reachable (ForkJoin cfg root fun _ b => b.isNested = true) s := by
      refine hr.mono fun s l hd => ⟨hd.1, ?_⟩
      have hd' := hd.2
      split at hd' <;> simp_all
    cases hf : (s.thread l.thread).frames with
    | nil =>
      exact hold (by simpa [State.put, State.goto, State.setThread, History.enter, hf] using hc)
    | cons f fs => exact (((joined_reachable hnested).spawning _ hl c q hspawning).2 f fs hf).2

/-- The end of a wait joins a child for which nobody else waits. -/
theorem ne_of_leave (hr : (system cfg).Reachable (ForkJoin cfg root rel) s) {t t' : ℕ}
    (ht : t < cfg.numThreads) (ht' : t' < cfg.numThreads) {x p : Handle}
    (hc : (s.thread t').ctl = .leaving x)
    (hw : (p, x) ∈ ((s.leave cfg t' x).thread t).waitPairs) : False := by
  have hj := joined_reachable hr
  have hth := callStack_reachable (respawn_of_forkJoin hr) t' ht'.le
  obtain ⟨f, fs, hf⟩ := List.exists_cons_of_ne_nil (hth.worker ht' (by rw [hc]; rfl))
  have hpair : (f.task, x) ∈ (s.thread t').waitPairs := by
    simp [Thread.waitPairs, hf, waitPairs, hc, Ctl.awaited]
  have hstack : s.toStacks.stack t' = f.task :: fs.map (·.task) := by
    simp [State.toStacks, Thread.stack, hc, Ctl.hand, hf]
  have hparent := hj.parent t' ht'.le f.task x hpair
  rw [leave_thread] at hw
  by_cases htt : t = t'
  · subst htt
    rw [Function.update_self] at hw
    have hw' : (p, x) ∈ waitPairs f.point.awaited fs := by
      simpa [Thread.waitPairs, hf, waitPairs, Ctl.awaited, Ctl.point] using hw
    have hold : (p, x) ∈ (s.thread t).waitPairs := by
      rw [Thread.waitPairs, hf]
      exact List.mem_append_right _ hw'
    have hp := (hj.parent t ht.le p x hold).symm.trans hparent
    cases hp
    have hsorted := hj.invariant.sorted t
    rw [hstack, List.pairwise_cons] at hsorted
    exact absurd (hsorted.1 f.task (task_of_waitPairs hw')) (lt_irrefl _)
  · rw [Function.update_of_ne htt] at hw
    have hp := (hj.parent t ht.le p x hw).symm.trans hparent
    cases hp
    have hmem : f.task ∈ s.toStacks.stack t :=
      List.mem_append_right _ (task_of_waitPairs hw)
    exact htt (hj.invariant.stack_unique f.task t t' hmem (by simp [hstack]))

theorem awaited_step (hr : (system cfg).Reachable (ForkJoin cfg root rel) s)
    (hd : ForkJoin cfg root rel s l) (hstep : step cfg s l = some s') (hs : s.Owed cfg) {t : ℕ}
    (ht : t < cfg.numThreads) {p h : Handle} (hw : (p, h) ∈ (s'.thread t).waitPairs) :
    h ∈ s'.hist.unjoined := by
  obtain ⟨hl, he⟩ := step_effect hstep
  have hmem : h ∈ s.hist.unjoined := by
    rcases he.waitPairs hw with hw | ⟨rfl, hact, hhead⟩
    · exact hs.awaited t ht p h hw
    · exact (mem_of_waits hd hact hhead).1
  rcases he.hist_cases with ⟨-, hu⟩ | ⟨x, q, hc, rfl⟩ | ⟨x, hc, rfl⟩
  · rwa [hu]
  · simp only [State.put, State.goto, State.setThread, History.enter]
    split
    · exact List.mem_cons_of_mem _ hmem
    · exact hmem
  · rw [leave_hist]
    dsimp only
    split
    · exact hmem
    next hne =>
      refine List.mem_filter.mpr ⟨hmem, decide_eq_true ?_⟩
      rintro rfl
      exact ne_of_leave hr ht (Nat.lt_of_le_of_ne hl hne) hc hw

theorem owed_reachable (hr : (system cfg).Reachable (ForkJoin cfg root rel) s) : s.Owed cfg := by
  refine hr.invariant' (I := State.Owed cfg) ⟨by simp [system, initial], ?_⟩ ?_
  · intro t _ p h hw
    cases task_of_waitPairs hw
  intro s l s' hr hs hd hstep
  obtain ⟨hl, he⟩ := step_effect hstep
  exact ⟨fun c hc => nested_step hr hd hl hs he hc,
    fun t ht p h hw => awaited_step hr hd hstep hs ht hw⟩

/-! ### What remains to be done -/

def testRank : EventBase.TestPc → ℕ
  | .incomplete => 3
  | .inactive => 2
  | .decrement => 1
  | .deactivate => 0

theorem testRank_lt {e : EventBase} {pc pc' : EventBase.TestPc} (h : (e.test pc).2 = .inl pc') :
    testRank pc' < testRank pc := by
  cases pc <;> simp only [EventBase.test] at h <;> (try split at h) <;> cases h <;> decide

/-- A queued task weighs 8 and an unjoined child 3; the rest of the way of a task or a call
weighs less the nearer it is to its end. -/
def Ctl.weight : Ctl π → ℕ
  | .spawning _ _ => 14
  | .took _ _ pc => 5 + testRank pc
  | .starting _ _ => 4
  | .functor => 2
  | .returned _ => 2
  | .seeking _ _ _ => 1
  | _ => 0

def Thread.weight (th : Thread π) : ℕ := th.ctl.weight + th.frames.length

def State.queued (cfg : Config π) (s : State π) : ℕ :=
  ∑ q ∈ range cfg.numQueues, (s.queue q).length

def State.remaining (cfg : Config π) (s : State π) : ℕ :=
  ∑ t ∈ range cfg.numThreads, (s.thread t).weight + 8 * s.queued cfg + 3 * s.hist.unjoined.length

/-- A step of a worker in a fork-join program that is not a spawn. -/
def Finishing (cfg : Config π) (root : State π → Attribute π → Prop)
    (rel : Attribute π → Attribute π → Prop) (s : State π) (l : Label π) : Prop :=
  ForkJoin cfg root rel s l ∧ l.thread < cfg.numThreads ∧ ∀ h attr g, l.act ≠ .spawn h attr g

theorem remaining_update {u : State π} {t : ℕ} (ht : t < cfg.numThreads) {th : Thread π}
    (hthread : u.thread = Function.update s.thread t th) :
    u.remaining cfg + (s.thread t).weight + 8 * s.queued cfg + 3 * s.hist.unjoined.length =
      s.remaining cfg + th.weight + 8 * u.queued cfg + 3 * u.hist.unjoined.length := by
  have hsum := sum_update Thread.weight ht s.thread th
  unfold State.remaining
  rw [hthread]
  omega

theorem queued_congr {u : State π} (h : u.queue = s.queue) : u.queued cfg = s.queued cfg := by
  unfold State.queued
  rw [h]

theorem queued_update {u : State π} {q : ℕ} (hq : q < cfg.numQueues) {hs : List Handle}
    (h : u.queue = Function.update s.queue q hs) :
    u.queued cfg + (s.queue q).length = s.queued cfg + hs.length := by
  unfold State.queued
  rw [h]
  exact sum_update List.length hq s.queue hs

theorem finishing_tick {t top : ℕ} (ht : t < cfg.numThreads) :
    Finishing cfg root rel s ⟨t, .tick top⟩ :=
  ⟨⟨trivial, trivial⟩, ht, by simp⟩

theorem step_tick {t top : ℕ} (ht : t < cfg.numThreads) (h : tick cfg s t top = some s') :
    step cfg s ⟨t, .tick top⟩ = some s' := by
  simp [step, ht.le, h]

/-- A step that changes nothing but the point of its thread. -/
theorem remaining_goto {t : ℕ} (ht : t < cfg.numThreads) {u : State π} {c : Ctl π}
    (hthread : u.thread = s.thread) (hqueue : u.queue = s.queue) (hhist : u.hist = s.hist) :
    (u.goto t c).remaining cfg + (s.thread t).ctl.weight = s.remaining cfg + c.weight := by
  have hupdate : (u.goto t c).thread = Function.update s.thread t { s.thread t with ctl := c } := by
    rw [← hthread]
    rfl
  have heq := remaining_update ht hupdate
  rw [queued_congr (s := s) (u := u.goto t c) hqueue,
    show (u.goto t c).hist = s.hist from hhist] at heq
  simp only [Thread.weight] at heq
  omega

/-- The functor on top waits for one of its children, or returns if it has joined them all. -/
theorem functor_finishes (hr : (system cfg).Reachable (ForkJoin cfg root rel) s) {t : ℕ}
    (ht : t < cfg.numThreads) (hc : (s.thread t).ctl = .functor) :
    ∃ l s', Finishing cfg root rel s l ∧ step cfg s l = some s' ∧
      s'.remaining cfg < s.remaining cfg := by
  have hth := callStack_reachable (respawn_of_forkJoin hr) t ht.le
  obtain ⟨f, fs, hf⟩ := List.exists_cons_of_ne_nil (hth.worker ht (by rw [hc]; rfl))
  by_cases hchild : ∃ c ∈ s.hist.unjoined, s.hist.parent c = some f.task
  · obtain ⟨c, hmem, hparent⟩ := hchild
    refine ⟨⟨t, .wait c⟩, s.goto t (getTask cfg (.wait (s.thread t).cache c)), ⟨⟨trivial, ?_⟩, ht,
      by simp⟩, ?_, ?_⟩
    · simp only [hf]
      exact ⟨hmem, hparent⟩
    · simp [step, ht.le, ht.ne, hc, call, (owed_reachable hr).nested c hmem]
    · have := remaining_goto (c := getTask cfg (.wait (s.thread t).cache c)) ht (s := s) rfl rfl rfl
      simp only [hc, Ctl.weight, getTask] at this ⊢
      omega
  · refine ⟨⟨t, .ret⟩, s.ret t f fs, ⟨⟨trivial, ?_⟩, ht, by simp⟩, ?_, ?_⟩
    · simp only [hf]
      intro c hmem hparent
      exact hchild ⟨c, hmem, hparent⟩
    · simp [step, ht.le, hc, call, hf]
    · have heq := remaining_update (s := s) (u := s.ret t f fs) ht rfl
      rw [queued_congr (s := s) (u := s.ret t f fs) rfl,
        show (s.ret t f fs).hist.unjoined = s.hist.unjoined from rfl] at heq
      simp only [Thread.weight, hc, hf, Ctl.weight, List.length_cons] at heq
      omega

theorem spawning_finishes (hr : (system cfg).Reachable (ForkJoin cfg root rel) s) {t : ℕ}
    (ht : t < cfg.numThreads) {h : Handle} {q : ℕ} (hc : (s.thread t).ctl = .spawning h q) :
    ∃ l s', Finishing cfg root rel s l ∧ step cfg s l = some s' ∧
      s'.remaining cfg < s.remaining cfg := by
  refine ⟨⟨t, .tick 0⟩, s.put cfg t h q, finishing_tick ht, step_tick ht (by simp [tick, hc]), ?_⟩
  have heq := remaining_update (s := s) (u := s.put cfg t h q) ht rfl
  have hqueue : (s.put cfg t h q).queued cfg + (s.queue q).length =
      s.queued cfg + (QueueSet.put cfg.policy (s.queue q) h).length :=
    queued_update ((flow_reachable hr).2 t h q hc) rfl
  have hlen : (QueueSet.put cfg.policy (s.queue q) h).length = (s.queue q).length + 1 := by
    cases cfg.policy <;> simp [QueueSet.put]
  have hunjoined : (s.put cfg t h q).hist.unjoined.length ≤ s.hist.unjoined.length + 1 := by
    simp only [State.put, State.goto, State.setThread, History.enter]
    split <;> simp
  simp only [Thread.weight, hc, Ctl.weight] at heq
  omega

theorem leaving_finishes (hr : (system cfg).Reachable (ForkJoin cfg root rel) s) {t : ℕ}
    (ht : t < cfg.numThreads) {h : Handle} (hc : (s.thread t).ctl = .leaving h) :
    ∃ l s', Finishing cfg root rel s l ∧ step cfg s l = some s' ∧
      s'.remaining cfg < s.remaining cfg := by
  have hth := callStack_reachable (respawn_of_forkJoin hr) t ht.le
  obtain ⟨f, fs, hf⟩ := List.exists_cons_of_ne_nil (hth.worker ht (by rw [hc]; rfl))
  have hpair : (f.task, h) ∈ (s.thread t).waitPairs := by
    simp [Thread.waitPairs, hf, waitPairs, hc, Ctl.awaited]
  have hmem := (owed_reachable hr).awaited t ht f.task h hpair
  refine ⟨⟨t, .tick 0⟩, s.leave cfg t h, finishing_tick ht, step_tick ht (by simp [tick, hc]), ?_⟩
  have heq := remaining_update (s := s) (u := s.leave cfg t h) ht (leave_thread s t h)
  rw [queued_congr (leave_queue s t h)] at heq
  have hless : (s.hist.unjoined.filter (· ≠ h)).length < s.hist.unjoined.length :=
    List.length_filter_lt_length_iff_exists.mpr ⟨h, hmem, by simp⟩
  simp only [Thread.weight, hc, Ctl.weight, leave_hist, ht.ne, if_false] at heq
  omega

theorem took_finishes {t : ℕ} (ht : t < cfg.numThreads) {p : Point π} {h : Handle}
    {pc : EventBase.TestPc} (hc : (s.thread t).ctl = .took p h pc) :
    ∃ l s', Finishing cfg root rel s l ∧ step cfg s l = some s' ∧
      s'.remaining cfg < s.remaining cfg := by
  have hdirect : ∀ u : State π, u.thread = s.thread → u.queue = s.queue → u.hist = s.hist →
      (u.goto t (.starting p h)).remaining cfg < s.remaining cfg := by
    intro u hthread hqueue hhist
    have := remaining_goto (c := .starting p h) ht hthread hqueue hhist
    simp only [hc, Ctl.weight] at this
    omega
  cases p with
  | wait current h' =>
    cases hr : (s.test h' pc).2 with
    | inl pc' =>
      refine ⟨⟨t, .tick 0⟩, (s.test h' pc).1.goto t (.took (.wait current h') h pc'),
        finishing_tick ht, step_tick ht (by simp [tick, hc, hr]), ?_⟩
      have := remaining_goto (c := .took (.wait current h') h pc') ht (s := s)
        (u := (s.test h' pc).1) rfl rfl rfl
      have hlt := testRank_lt (e := (s.task h').testingCompl) hr
      simp only [hc, Ctl.weight] at this
      omega
    | inr b =>
      exact ⟨⟨t, .tick 0⟩, (s.test h' pc).1.goto t (.starting (.wait current h') h),
        finishing_tick ht, step_tick ht (by simp [tick, hc, hr]), hdirect _ rfl rfl rfl⟩
  | work => exact ⟨⟨t, .tick 0⟩, _, finishing_tick ht, step_tick ht (by simp only [tick, hc]),
      hdirect s rfl rfl rfl⟩
  | barrier => exact ⟨⟨t, .tick 0⟩, _, finishing_tick ht, step_tick ht (by simp only [tick, hc]),
      hdirect s rfl rfl rfl⟩

theorem starting_finishes {t : ℕ} (ht : t < cfg.numThreads) {p : Point π} {h : Handle}
    (hc : (s.thread t).ctl = .starting p h) :
    ∃ l s', Finishing cfg root rel s l ∧ step cfg s l = some s' ∧
      s'.remaining cfg < s.remaining cfg := by
  refine ⟨⟨t, .tick 0⟩, s.start t p h, finishing_tick ht, step_tick ht (by simp [tick, hc]), ?_⟩
  have heq := remaining_update (s := s) (u := s.start t p h) ht rfl
  rw [queued_congr (s := s) (u := s.start t p h) rfl,
    show (s.start t p h).hist.unjoined = s.hist.unjoined from rfl] at heq
  simp only [Thread.weight, hc, Ctl.weight, List.length_cons] at heq
  omega

theorem returned_finishes {t : ℕ} (ht : t < cfg.numThreads) {f : Frame π}
    (hc : (s.thread t).ctl = .returned f) :
    ∃ l s', Finishing cfg root rel s l ∧ step cfg s l = some s' ∧
      s'.remaining cfg < s.remaining cfg := by
  refine ⟨⟨t, .tick 0⟩, s.notify cfg t f, finishing_tick ht, step_tick ht (by simp [tick, hc]),
    ?_⟩
  have heq := remaining_update (s := s) (u := s.notify cfg t f) ht rfl
  rw [queued_congr (s := s) (u := s.notify cfg t f) rfl,
    show (s.notify cfg t f).hist.unjoined = s.hist.unjoined from rfl] at heq
  have hweight : (resume cfg (s.thread t).cache f.point).2.weight ≤ 1 := by
    cases f.point <;> simp [resume, getTask, Ctl.weight]
  have hreturned : (s.thread t).ctl.weight = 2 := by rw [hc]; rfl
  simp only [Thread.weight, hreturned] at heq
  omega

/-- Away from the queues a worker finishes something by its next step. -/
theorem busy_finishes (hr : (system cfg).Reachable (ForkJoin cfg root rel) s) {t : ℕ}
    (ht : t < cfg.numThreads) (hseek : ∀ p n sk, (s.thread t).ctl ≠ .seeking p n sk) :
    ∃ l s', Finishing cfg root rel s l ∧ step cfg s l = some s' ∧
      s'.remaining cfg < s.remaining cfg := by
  cases hc : (s.thread t).ctl with
  | functor => exact functor_finishes hr ht hc
  | spawning h q => exact spawning_finishes hr ht hc
  | polling h pc =>
    have := not_polls hr ht
    simp [hc, Ctl.polls] at this
  | seeking p n sk => exact absurd hc (hseek p n sk)
  | took p h pc => exact took_finishes ht hc
  | starting p h => exact starting_finishes ht hc
  | returned f => exact returned_finishes ht hc
  | leaving h => exact leaving_finishes hr ht hc
  | spinning g myPhase => exact absurd hc ((barrierFree_reachable hr t).spinning g myPhase)

/-! ### Looking for a task -/

/-- What a worker that looks for a task at `p` finds in the queue it visits at `k`. -/
def State.visited (cfg : Config π) (s : State π) (t : ℕ) (p : Point π) (k top : ℕ) :
    Option (Handle × List Handle) :=
  let i := (cfg.queueNumber t + k) % cfg.numQueues
  testAndGet cfg.policy (i == cfg.queueNumber t) top (p.predicate cfg s) (s.queue i)

/-- A visit finds a task, or the worker goes on to the next queue. -/
theorem visit_finishes {t : ℕ} (ht : t < cfg.numThreads) {p : Point π} {n : Word} {k top : ℕ}
    (hk : k < cfg.numQueues) (hc : (s.thread t).ctl = .seeking p n (.visit k))
    (htop : LegitTop cfg.policy (compareTaskPtr cfg s)
      (s.queue ((cfg.queueNumber t + k) % cfg.numQueues)) top) :
    (∃ s', tick cfg s t top = some s' ∧ s'.remaining cfg < s.remaining cfg) ∨
      s.visited cfg t p k top = none ∧
        tick cfg s t top = some (s.goto t (.seeking p n (.visit (k + 1)))) := by
  let i := (cfg.queueNumber t + k) % cfg.numQueues
  cases hget : s.visited cfg t p k top with
  | none =>
    refine .inr ⟨rfl, ?_⟩
    simp only [State.visited] at hget
    simp only [tick, hc, seek, hk, if_true, htop, hget]
  | some r =>
    simp only [State.visited] at hget
    refine .inl ⟨s.take t p i r.1 r.2, ?_, ?_⟩
    · simp only [tick, hc, seek, hk, if_true, htop, hget, i]
    · have heq := remaining_update (s := s) (u := s.take t p i r.1 r.2) ht rfl
      have hqueue : (s.take t p i r.1 r.2).queued cfg + (s.queue i).length =
          s.queued cfg + r.2.length :=
        queued_update (Nat.mod_lt _ (by omega)) rfl
      have hlen : r.2.length + 1 = (s.queue i).length := by
        obtain ⟨hmem, -, hrest⟩ := testAndGet_eq_some hget
        have hlt : _ < (s.queue i).length := (List.getElem?_eq_some_iff.mp hmem).1
        have hless : r.2.length = (s.queue i).length - 1 := by
          rw [hrest]
          exact List.length_eraseIdx_of_lt hlt
        omega
      have hfound : (found r.1 p).weight ≤ 8 := by cases p <;> simp [found, Ctl.weight, testRank]
      have hseeking : (s.thread t).ctl.weight = 1 := by rw [hc]; rfl
      rw [show (s.take t p i r.1 r.2).hist.unjoined = s.hist.unjoined from rfl] at heq
      simp only [Thread.weight, hseeking] at heq
      omega

/-- A thread that goes on with its search leaves the rest to be done as it is. -/
theorem remaining_seek {t : ℕ} (ht : t < cfg.numThreads) {u : State π} {p : Point π} {n n' : Word}
    {sk sk' : Seek} (hc : (s.thread t).ctl = .seeking p n sk) (hthread : u.thread = s.thread)
    (hqueue : u.queue = s.queue) (hhist : u.hist = s.hist) :
    (u.goto t (.seeking p n' sk')).remaining cfg = s.remaining cfg := by
  have := remaining_goto (c := .seeking p n' sk') ht hthread hqueue hhist
  simpa [hc, Ctl.weight] using this

/-- How far a worker that waits for a task that is complete is from seeing it. -/
def Seek.rankDone (numQueues : ℕ) : Seek → ℕ
  | .test .exit pc => testRank pc
  | .test .loop pc => 4 + testRank pc
  | .visit k => 8 + (numQueues - k)

theorem done_finishes (hcomp : cfg.policy = .prioS → IsStrictWeakOrder π fun x y => cfg.comp x y)
    {m t : ℕ} (ht : t < cfg.numThreads)
    {current : Copy π} {c : Handle} {n : Word} {sk : Seek}
    (hc : (s.thread t).ctl = .seeking (.wait current c) n sk)
    (hdone : (s.task c).testingCompl.eventState ≠ activeIncomplete)
    (hm : s.remaining cfg = m) :
    (system cfg).Leads (Finishing cfg root rel) (fun u => u.remaining cfg < m) s := by
  induction hrank : sk.rankDone cfg.numQueues using Nat.strongRecOn
    generalizing s n sk with
  | ind rank ih =>
    -- the search goes on, perhaps after an access to the event
    have hgoes : ∀ (u : State π) sk' top, u.thread = s.thread → u.queue = s.queue → u.hist = s.hist →
        (u.task c).testingCompl.eventState ≠ activeIncomplete →
        tick cfg s t top = some (u.goto t (.seeking (.wait current c) n sk')) →
        sk'.rankDone cfg.numQueues < rank →
          (system cfg).Leads (Finishing cfg root rel) (fun u => u.remaining cfg < m) s := by
      intro u sk' top hthread hqueue hhist hdone' htick hless
      exact .step (finishing_tick ht) (step_tick ht htick) (ih _ hless (goto_ctl _ _ _) hdone'
        ((remaining_seek ht hc hthread hqueue hhist).trans hm) rfl)
    cases sk with
    | visit k =>
      by_cases hk : k < cfg.numQueues
      · obtain ⟨top, htop⟩ := exists_top hcomp s ((cfg.queueNumber t + k) % cfg.numQueues)
        rcases visit_finishes ht hk hc htop with ⟨s', htick, hlt⟩ | ⟨-, htick⟩
        · exact .step (finishing_tick ht) (step_tick ht htick) (.here (hm ▸ hlt))
        · refine hgoes s _ _ rfl rfl rfl hdone htick ?_
          subst hrank
          simp only [Seek.rankDone]
          omega
      · have htick : tick cfg s t 0 =
            some (s.goto t (.seeking (.wait current c) n (.test .loop .incomplete))) := by
          simp only [tick, hc, seek, hk, if_false, missed]
        refine hgoes s _ _ rfl rfl rfl hdone htick ?_
        subst hrank
        simp only [Seek.rankDone, testRank]
        omega
    | test site pc =>
      let e := (s.task c).testingCompl
      have hkept : ((s.test c pc).1.task c).testingCompl.eventState ≠ activeIncomplete := by
        have hiff : (e.test pc).1.eventState = activeIncomplete ↔ e.eventState = activeIncomplete :=
          EventBase.test_incomplete_iff fun _ => hdone
        simpa [State.test, State.setTask] using fun h => hdone (hiff.mp h)
      cases hr : (s.test c pc).2 with
      | inl pc' =>
        have htick : tick cfg s t 0 =
            some ((s.test c pc).1.goto t (.seeking (.wait current c) n (.test site pc'))) := by
          simp only [tick, hc, seek, hr]
        refine hgoes (s.test c pc).1 _ 0 rfl rfl rfl hkept htick ?_
        have hlt := testRank_lt (e := e) hr
        subst hrank
        cases site <;> simp only [Seek.rankDone] <;> omega
      | inr b =>
        have hb : b = true := by
          by_contra hb
          rw [Bool.not_eq_true] at hb
          exact hdone (EventBase.test_result.mp (hb ▸ hr)).2
        subst hb
        cases site with
        | loop =>
          have htick : tick cfg s t 0 = some ((s.test c pc).1.goto t
              (.seeking (.wait current c) n (.test .exit .incomplete))) := by
            simp only [tick, hc, seek, hr, tested, Option.map_some]
          refine hgoes (s.test c pc).1 _ 0 rfl rfl rfl hkept htick ?_
          subst hrank
          simp only [Seek.rankDone, testRank]
          omega
        | exit =>
          have htick : tick cfg s t 0 = some ((s.test c pc).1.goto t (.leaving c)) := by
            simp only [tick, hc, seek, hr, tested, Option.map_some]
          have hlt := remaining_goto (c := .leaving c) ht (s := s) (u := (s.test c pc).1) rfl rfl
            rfl
          simp only [hc, Ctl.weight] at hlt
          exact .step (finishing_tick ht) (step_tick ht htick) (.here (by omega))

/-- How far a worker with an incomplete wait, or none, is from the queue `k₀` that it visits. -/
def Seek.rankFound (numQueues k₀ : ℕ) (n : Word) : Seek → ℕ
  | .visit k => if k ≤ k₀ then k₀ - k else numQueues + 4 + (numQueues - k)
  | .test .loop _ => if 0 < n then numQueues + 1 else numQueues + 3
  | .test .exit _ => numQueues + 2

/-- The completion predicate of the point is false when it is tested. -/
theorem tick_unsatisfied (hr : (system cfg).Reachable (ForkJoin cfg root rel) s) {t : ℕ}
    (ht : t < cfg.numThreads) {p : Point π} {n : Word} {site : Site} {pc : EventBase.TestPc}
    (hc : (s.thread t).ctl = .seeking p n (.test site pc)) (hun : p.Unsatisfied s) :
    tick cfg s t 0 = (tested cfg p n site false).map (s.goto t) := by
  simp only [tick, hc, seek]
  cases p with
  | wait current c =>
    have hpc : pc = .incomplete := by
      by_contra hne
      have hseen : (s.thread t).ctl.seen = some c := by simp [hc, Ctl.seen, hne]
      exact (State.Events.reachable (respawn_of_forkJoin hr)).seen t ht.le c hseen hun
    have htest : s.test c pc = (s, .inr false) := by
      have hun' : (s.task c).testingCompl.eventState = activeIncomplete := hun
      simp [State.test, hpc, EventBase.test, hun', State.setTask]
    simp only [htest]
  | work => rfl
  | barrier => rfl

/-- What a test that finds the predicate false leads to. -/
theorem tested_false (cfg : Config π) (p : Point π) (n : Word) (site : Site) (k₀ : ℕ)
    (pc : EventBase.TestPc) (hk₀ : k₀ < cfg.numQueues) : ∃ n' sk,
      tested cfg p n site false = some (.seeking p n' sk) ∧
        sk.rankFound cfg.numQueues k₀ n' < (Seek.test site pc).rankFound cfg.numQueues k₀ n := by
  cases site with
  | loop =>
    by_cases hn : 0 < n
    · refine ⟨n - 1, .visit 0, by simp only [tested, if_pos hn], ?_⟩
      simp only [Seek.rankFound, if_pos hn, Nat.zero_le, if_true]
      omega
    · refine ⟨n - 1, .test .exit .incomplete, by simp only [tested, if_neg hn], ?_⟩
      simp only [Seek.rankFound, if_neg hn]
      omega
  | exit =>
    refine ⟨_, .test .loop .incomplete, rfl, ?_⟩
    have hpos : 0 < if cfg.taskMaxAttempts / 2 = 0 then 1 else cfg.taskMaxAttempts / 2 := by
      split
      · decide
      · exact (BitVec.pos_iff_ne_zero _).mpr ‹_›
    simp only [Seek.rankFound, if_pos hpos]
    omega

theorem found_finishes {m t k₀ : ℕ} (ht : t < cfg.numThreads) (hk₀ : k₀ < cfg.numQueues)
    {p : Point π} (hbarrier : ∀ current g b, p ≠ .barrier current g b) {top : ℕ → ℕ} {n : Word}
    {sk : Seek} (hr : (system cfg).Reachable (ForkJoin cfg root rel) s)
    (hc : (s.thread t).ctl = .seeking p n sk) (hun : p.Unsatisfied s)
    (htop : ∀ q, LegitTop cfg.policy (compareTaskPtr cfg s) (s.queue q) (top q))
    (hfinds : s.visited cfg t p k₀ (top ((cfg.queueNumber t + k₀) % cfg.numQueues)) ≠ none)
    (hm : s.remaining cfg = m) :
    (system cfg).Leads (Finishing cfg root rel) (fun u => u.remaining cfg < m) s := by
  induction hrank : sk.rankFound cfg.numQueues k₀ n using Nat.strongRecOn
    generalizing s n sk with
  | ind rank ih =>
    -- the search goes on in the same state
    have hgoes : ∀ n' sk' i, tick cfg s t i = some (s.goto t (.seeking p n' sk')) →
        sk'.rankFound cfg.numQueues k₀ n' < rank →
          (system cfg).Leads (Finishing cfg root rel) (fun u => u.remaining cfg < m) s := by
      intro n' sk' i htick hless
      have hstep := step_tick ht htick
      have hun' : p.Unsatisfied (s.goto t (.seeking p n' sk')) := by
        cases p <;> exact hun
      have hfinds' : (s.goto t (.seeking p n' sk')).visited cfg t p k₀
          (top ((cfg.queueNumber t + k₀) % cfg.numQueues)) ≠ none := by
        cases p <;> exact hfinds
      exact .step (finishing_tick ht) hstep (ih _ hless
        (hr.step (a := ⟨t, .tick i⟩) ⟨trivial, trivial⟩ hstep) (goto_ctl _ _ _) hun' htop hfinds'
        ((remaining_seek ht hc rfl rfl rfl).trans hm) rfl)
    cases sk with
    | visit k =>
      by_cases hk : k < cfg.numQueues
      · rcases visit_finishes ht hk hc (htop _) with ⟨s', htick, hlt⟩ | ⟨hno, htick⟩
        · exact .step (finishing_tick ht) (step_tick ht htick) (.here (hm ▸ hlt))
        · have hne : k ≠ k₀ := by
            rintro rfl
            exact hfinds hno
          refine hgoes n _ _ htick ?_
          subst hrank
          simp only [Seek.rankFound]
          split <;> split <;> omega
      · have htick : tick cfg s t 0 = some (s.goto t (.seeking p n (.test .loop .incomplete))) := by
          simp only [tick, hc, seek, hk, if_false]
          cases p with
          | barrier current g b => exact absurd rfl (hbarrier current g b)
          | _ => rfl
        refine hgoes n _ _ htick ?_
        subst hrank
        simp only [Seek.rankFound]
        split <;> split <;> omega
    | test site pc =>
      obtain ⟨n', sk', htested, hless⟩ := tested_false cfg p n site k₀ pc hk₀
      refine hgoes n' sk' 0 ?_ (hrank ▸ hless)
      rw [tick_unsatisfied hr ht hc hun, htested]
      rfl

/-! ### Completion -/

/-- A worker that is not blocked finishes something by steps of its own. -/
theorem unblocked_finishes
    (hcomp : cfg.policy = .prioS → IsStrictWeakOrder π fun x y => cfg.comp x y)
    (hr : (system cfg).Reachable (ForkJoin cfg root rel) s) {t : ℕ} (ht : t < cfg.numThreads)
    {top : ℕ → ℕ} (htop : ∀ q, LegitTop cfg.policy (compareTaskPtr cfg s) (s.queue q) (top q))
    (hfree : ¬s.Blocked cfg top t) :
    (system cfg).Leads (Finishing cfg root rel) (fun u => u.remaining cfg < s.remaining cfg) s := by
  by_cases hseek : ∃ p n sk, (s.thread t).ctl = .seeking p n sk
  · obtain ⟨p, n, sk, hc⟩ := hseek
    have hbarrier : ∀ current g b, p ≠ .barrier current g b := by
      rintro current g b rfl
      exact (barrierFree_reachable hr t).point current g b (by rw [hc]; rfl)
    have hpoint : p ∈ (s.thread t).schedulingPoint := by simp [Thread.schedulingPoint, hc]
    by_cases hun : p.Unsatisfied s
    · have hget : get cfg.policy cfg.numQueues (cfg.queueNumber t) top (p.predicate cfg s)
          s.queue ≠ none := by
        intro hnone
        exact hfree ⟨p, hpoint, hun, by rw [hnone]; rfl⟩
      unfold QueueSet.get at hget
      simp only [Ne, scan_eq_none_iff, not_forall] at hget
      obtain ⟨k, hk, hfinds⟩ := hget
      exact found_finishes ht hk hbarrier hr hc hun htop hfinds rfl
    · cases p with
      | work => exact absurd trivial hun
      | wait current c => exact done_finishes hcomp ht hc hun rfl
      | barrier current g b => exact absurd rfl (hbarrier current g b)
  · obtain ⟨l, s', hd, hs, hlt⟩ := busy_finishes hr ht fun p n sk hc => hseek ⟨p, n, sk, hc⟩
    exact .step hd hs (.here hlt)

/-- Every task that was put is complete. -/
def State.Completed (s : State π) : Prop :=
  ∀ h, s.hist.entries h .complete = s.hist.entries h .queued

/-- A program that never gets stuck can always be completed. -/
theorem completes_of_not_stuck
    (hcomp : cfg.policy = .prioS → IsStrictWeakOrder π fun x y => cfg.comp x y)
    (hstuck : ∀ s, (system cfg).Reachable (ForkJoin cfg root rel) s → ¬s.Stuck cfg)
    (hr : (system cfg).Reachable (ForkJoin cfg root rel) s) :
    (system cfg).Leads (Finishing cfg root rel) State.Completed s := by
  refine System.Leads.of_measure (fun s l hd => hd.1) (State.remaining cfg) ?_ hr
  intro s hr hnot
  obtain ⟨h, hne⟩ := not_forall.mp hnot
  have hstages := (flow_reachable (respawn_of_forkJoin hr)).1.stages h
  choose top htop using exists_top hcomp s
  have hfree : ∃ t < cfg.numThreads, ¬s.Blocked cfg top t := by
    by_contra hall
    refine hstuck s hr ⟨⟨h, by omega⟩, top, fun q _ => htop q, fun t ht => ?_⟩
    by_contra hfree
    exact hall ⟨t, ht, hfree⟩
  obtain ⟨t, ht, hfree⟩ := hfree
  exact unblocked_finishes hcomp hr ht htop hfree

/-- From every state of a fork-join program with a single root in which no child has a level below
its parent's, the workers can complete every task that was put, without another spawn. -/
theorem can_complete (hp : cfg.policy ≠ .prioS) (hpos : 0 < cfg.numThreads)
    (hr : (system cfg).Reachable (ForkJoin cfg SingleRoot fun a c => a.level ≤ c.level) s) :
    (system cfg).Leads (Finishing cfg SingleRoot fun a c => a.level ≤ c.level) State.Completed
      s := by
  refine completes_of_not_stuck (fun h => absurd h hp) ?_ hr
  intro s hr
  cases hpol : cfg.policy with
  | cilkS =>
    exact not_stuck_of_layered hpol hpos hr (layered_of_singleRoot hpol hr) (fun _ _ h => h)
      (fun _ _ _ _ h => h.elim)
  | lifoS => exact not_stuck_of_admitting (.inl hpol) hpos hr
  | fifoS => exact not_stuck_of_admitting (.inr hpol) hpos hr
  | prioS => exact absurd hpol hp

theorem can_complete_waitRun :
    ¬((system (.small .cilkS [1, 1])).final waitRun).Completed ∧
      (system (.small .cilkS [1, 1])).Leads
        (Finishing (.small .cilkS [1, 1]) SingleRoot fun a c => a.level ≤ c.level)
        State.Completed ((system (.small .cilkS [1, 1])).final waitRun) :=
  ⟨fun h => absurd (h 1) (by decide),
    can_complete (by decide) (by decide) (System.reachable_final (by decide))⟩

theorem higherAwaited_of_forkJoin (hr : (system cfg).Reachable
    (ForkJoin cfg root fun a c => cfg.comp a.priority c.priority = true) s) :
    s.HigherAwaited cfg := by
  have hj := joined_reachable hr
  intro t ht a c hw q hq
  exact hj.invariant.value_rel c a (.inl ⟨q, hq⟩) (hj.parent t ht a c hw)

/-- Under `prioS` the same holds, whenever the roots are spawned, if every child has a higher
priority than its parent. -/
theorem higher_children_complete (hp : cfg.policy = .prioS) (hpos : 0 < cfg.numThreads)
    (hcomp : IsStrictWeakOrder π fun x y => cfg.comp x y)
    (hr : (system cfg).Reachable
      (ForkJoin cfg root fun a c => cfg.comp a.priority c.priority = true) s) :
    (system cfg).Leads (Finishing cfg root fun a c => cfg.comp a.priority c.priority = true)
      State.Completed s :=
  completes_of_not_stuck (fun _ => hcomp) (fun _ hr =>
    not_stuck_of_higherAwaited hp hpos hcomp hr (higherAwaited_of_forkJoin hr)) hr

theorem higher_children_complete_priorityRun :
    ¬((system (.small .prioS [1])).final (priorityRun 1)).Completed ∧
      (system (.small .prioS [1])).Leads (Finishing (.small .prioS [1]) SingleRoot fun a c =>
          (Config.small .prioS [1]).comp a.priority c.priority = true)
        State.Completed ((system (.small .prioS [1])).final (priorityRun 1)) :=
  ⟨fun h => absurd (h 1) (by decide), higher_children_complete rfl (by decide)
    (lt_isStrictWeakOrder _ _) (System.reachable_final (by decide))⟩

end PFunc.TaskManager
