import PFunc.Deques

/-!
# One worker goes depth first

Under `cilkS` and `lifoS` a single worker that waits for a child takes a child of the
waiting task. Its stack is therefore a path of the spawn tree, from the root down, and no higher
than that tree is deep.
-/

namespace PFunc.TaskManager

open LabelledRuns Atomics Event QueueSet

variable {π : Type} {cfg : Config π} {s s' : State π}
variable {root : State π → Attribute π → Prop} {rel : Attribute π → Attribute π → Prop}

/-! ### What a visited queue is visited for -/

/-- A thread visits the queues while it waits for `c`. -/
def Ctl.Visits (ctl : Ctl π) (c : Handle) : Prop :=
  ∃ current n k, ctl = .seeking (.wait current c) n (.visit k)

theorem visits_of_tested {p : Point π} {n : Word} {site : Site} {b : Bool} {ctl : Ctl π}
    {c : Handle} (h : tested cfg p n site b = some ctl) (hv : ctl.Visits c) :
    b = false ∧ ∃ current, p = .wait current c := by
  obtain ⟨current, n', k, rfl⟩ := hv
  cases site <;> cases b
  · simp only [tested] at h
    split at h
    · cases h
      exact ⟨rfl, current, rfl⟩
    · cases h
  · cases h
  · cases h
  · cases p <;> cases h

/-- A thread comes to visit the queues only from the test of the event, and has then just found
it incomplete. -/
theorem visits_of_seek {l : Label π} {p : Point π} {n : Word} {top : ℕ} {sk : Seek}
    (hc : (s.thread l.thread).ctl = .seeking p n sk)
    (h : seek cfg s l.thread p n top sk = some s') {c : Handle}
    (hv : (s'.thread l.thread).ctl.Visits c) :
    (s.thread l.thread).ctl.Visits c ∧ s'.task = s.task ∨
      (s'.task c).testingCompl.eventState = activeIncomplete := by
  have hdull : ∀ site, (tested cfg p n site false).map (s.goto l.thread) = some s' →
      (∀ current h', p ≠ .wait current h') → False := by
    intro site h hp
    obtain ⟨ctl, hctl, rfl⟩ := Option.map_eq_some_iff.mp h
    obtain ⟨-, current, rfl⟩ := visits_of_tested hctl
      (by simpa [State.goto, State.setThread] using hv)
    exact hp current c rfl
  cases sk with
  | test site pc =>
    cases p with
    | wait current h' =>
      simp only [seek] at h
      split at h
      next pc' hr =>
        cases h
        obtain ⟨_, _, _, hv⟩ := hv
        simp [State.goto, State.setThread] at hv
      next b hr =>
        obtain ⟨ctl, hctl, rfl⟩ := Option.map_eq_some_iff.mp h
        obtain ⟨rfl, current', hp⟩ := visits_of_tested hctl
          (by simpa [State.goto, State.setThread] using hv)
        cases hp
        obtain ⟨rfl, hstate⟩ := EventBase.test_result.mp hr
        right
        simpa [State.goto, State.setThread, State.test, State.setTask, EventBase.test] using hstate
    | work => exact (hdull site h (by simp)).elim
    | barrier => exact (hdull site h (by simp)).elim
  | visit k =>
    simp only [seek] at h
    split at h
    next hk =>
      split at h
      next htop =>
        split at h
        next r hget =>
          cases h
          obtain ⟨_, _, _, hv⟩ := hv
          cases p <;> simp [State.take, State.goto, State.setThread, found] at hv
        next hget =>
          cases h
          obtain ⟨current, n', k', hv⟩ := hv
          simp only [State.goto, State.setThread, Function.update_self] at hv
          cases hv
          exact .inl ⟨⟨current, n, k, hc⟩, rfl⟩
      next => cases h
    next =>
      cases h
      obtain ⟨_, _, _, hv⟩ := hv
      cases p <;> simp [State.goto, State.setThread, missed] at hv

theorem visits_of_step {l : Label π} (h : step cfg s l = some s') {c : Handle}
    (hv : (s'.thread l.thread).ctl.Visits c) :
    (s.thread l.thread).ctl.Visits c ∧ s'.task = s.task ∨
      (s'.task c).testingCompl.eventState = activeIncomplete := by
  by_cases hseek : ∃ p n sk, (s.thread l.thread).ctl = .seeking p n sk
  · obtain ⟨p, n, sk, hc⟩ := hseek
    simp only [step, Option.ite_none_right_eq_some] at h
    obtain ⟨-, h⟩ := h
    split at h
    next top =>
      simp only [tick, hc] at h
      exact visits_of_seek hc h hv
    next => simp [hc] at h
  · have hmove : ∀ ctl : Ctl π, PointMove (s.thread l.thread) ctl →
        ctl.token = (s.thread l.thread).ctl.token → ctl.Visits c → False := by
      rintro ctl hpoint htoken ⟨current, n, k, rfl⟩
      cases hpoint with
      | same hp =>
        cases hc : (s.thread l.thread).ctl with
        | seeking p n sk => exact hseek ⟨p, n, sk, hc⟩
        | _ => simp [hc, Ctl.point, Ctl.token] at hp htoken
      | left hp => simp [Ctl.point] at hp
      | spin g myPhase hc hp => simp [Ctl.point] at hp
    obtain ⟨-, he⟩ := step_effect h
    cases he with
    | stay hact => exact .inl ⟨hv, rfl⟩
    | goto ctl htoken _ _ _ hpoint =>
      exact (hmove ctl hpoint htoken (by simpa [State.goto, State.setThread] using hv)).elim
    | test h' pc ctl _ _ htoken _ _ hpoint =>
      exact (hmove ctl hpoint htoken (by simpa [State.goto, State.setThread] using hv)).elim
    | wait h' ctl _ _ _ hcase =>
      obtain ⟨_, _, _, hv⟩ := hv
      simp only [State.goto, State.setThread, Function.update_self] at hv
      rcases hcase with ⟨-, rfl⟩ | ⟨-, rfl⟩ <;> cases hv
    | arrive g x ctl _ _ _ hcase =>
      obtain ⟨_, _, _, hv⟩ := hv
      simp only [State.goto, State.setThread, Function.update_self] at hv
      rcases hcase with rfl | ⟨_, rfl⟩ <;> cases hv
    | notify f =>
      obtain ⟨_, _, _, hv⟩ := hv
      cases hp : f.point <;>
        simp [State.notify, State.enter, State.setThread, hp, resume, getTask] at hv
    | take p n k i top x rest hc => exact (hseek ⟨p, n, _, hc⟩).elim
    | leave =>
      obtain ⟨_, _, _, hv⟩ := hv
      simp at hv
    | _ =>
      obtain ⟨_, _, _, hv⟩ := hv
      simp [State.spawn, State.ret, State.put, State.start, State.enter, State.goto,
        State.setThread] at hv

/-- With a single worker the task for which it visits the queues stays incomplete. -/
theorem incomplete_of_visits (hone : cfg.numThreads = 1)
    (hr : (system cfg).Reachable (Respawn cfg) s) {t : ℕ} (ht : t < cfg.numThreads) {c : Handle}
    (hv : (s.thread t).ctl.Visits c) : (s.task c).testingCompl.eventState = activeIncomplete := by
  refine hr.invariant' (I := fun s => ∀ t < cfg.numThreads, ∀ c, (s.thread t).ctl.Visits c →
    (s.task c).testingCompl.eventState = activeIncomplete) ?_ ?_ t ht c hv
  · rintro t ht c ⟨_, _, _, hv⟩
    simp [system, initial, ht.ne, getTask] at hv
  intro s l s' hr hs hd hstep t ht c hv
  by_cases htl : t = l.thread
  · subst htl
    rcases visits_of_step hstep hv with ⟨hold, htask⟩ | hnew
    · rw [htask]
      exact hs l.thread ht c hold
    · exact hnew
  -- the main thread moves
  obtain ⟨hl, he⟩ := step_effect hstep
  rw [he.other htl] at hv
  have hold := hs t ht c hv
  have hmain := (callStack_reachable hr l.thread hl).main (by omega)
  cases he with
  | spawn h attr g q hact hc =>
    have hne : c ≠ h := by
      rintro rfl
      obtain ⟨current, n, k, hv⟩ := hv
      simp only [Respawn, hact] at hd
      exact hd.2 t ht.le (Thread.mem_awaited.mpr (.inl (by rw [hv]; rfl)))
    rw [show (s.spawn l.thread h attr g q).task c = s.task c from Function.update_of_ne hne _ _]
    exact hold
  | test h pc ctl hpc =>
    by_cases hch : c = h
    · subst hch
      have hevents := State.Events.reachable hr
      simpa [State.goto, State.setThread, State.test, State.setTask] using
        (EventBase.test_incomplete_iff fun hne => hevents.seen _ hl c (hpc hne)).mpr hold
    · simpa [State.goto, State.setThread, State.test, State.setTask, hch] using hold
  | notify f hc => simp [hc, Ctl.point] at hmain
  | leave h hc =>
    rw [leave_task]
    exact hold
  | _ => exact hold

/-! ### The path -/

/-- While the only worker visits the queues for a child of its task on top, the newest task of
its queue is a child of that task, and no other queue holds a task. -/
theorem newest_child (hp : cfg.policy ≠ .fifoS) (hone : cfg.numThreads = 1)
    (hr : (system cfg).Reachable (ForkJoin cfg SingleRoot rel) s) {t : ℕ} (ht : t < cfg.numThreads)
    {c : Handle} (hv : (s.thread t).ctl.Visits c) {f : Frame π} {fs : List (Frame π)}
    (hf : (s.thread t).frames = f :: fs) :
    ∃ h rest, s.queue (cfg.queueNumber t) = h :: rest ∧ s.hist.parent h = some f.task ∧
      ∀ q ≠ cfg.queueNumber t, s.queue q = [] := by
  have hr' := respawn_of_forkJoin hr
  have hj := joined_reachable hr
  have hmem : f.task ∈ (s.thread t).stack := by simp [Thread.stack, hf]
  have hchild : ∀ q, ∀ x ∈ s.queue q, s.hist.parent x ≠ none := by
    intro q x hx hnone
    have := (root_alone hr hx hnone).1
    have := two_le_clock hr hmem
    omega
  have hincomplete := incomplete_of_visits hone hr' ht hv
  obtain ⟨current, n, k, hctl⟩ := hv
  have hstack : s.toStacks.stack t = f.task :: fs.map (·.task) := by
    simp [State.toStacks, Thread.stack, hctl, Ctl.hand, hf]
  have hpair : (f.task, c) ∈ (s.thread t).waitPairs := by
    simp [Thread.waitPairs, hf, waitPairs, hctl, Ctl.awaited, Ctl.point, Point.awaited]
  have honly : ∀ i a rest, s.toStacks.stack i = a :: rest → i = t := by
    intro i a rest hi
    have hlt := lt_of_stack_eq hr' hi
    omega
  obtain ⟨i, a, rest, hi, hqueue, hlater⟩ := hj.invariant.exists_latest
    ((Set.finite_singleton t).subset fun i hi => by
      obtain ⟨a, rest, ha⟩ := List.exists_cons_of_ne_nil hi
      exact honly i a rest ha) ⟨t, by simp [hstack]⟩ (fun _ => c) (by
      intro i a rest hi
      obtain rfl := honly i a rest hi
      rw [hstack] at hi
      cases hi
      exact ⟨active_of_awaited hr ht.le hpair hincomplete, hj.parent i ht.le f.task c hpair⟩)
  obtain rfl := honly i a rest hi
  obtain ⟨h, hs, hq⟩ := List.exists_cons_of_ne_nil (List.ne_nil_of_mem hqueue)
  have hfront : h ∈ s.queue (cfg.queueNumber i) := by simp [hq]
  refine ⟨h, hs, hq, ?_, ?_⟩
  · -- the task it waits for is queued there, so the newest one was put after that
    have hle : s.hist.born c ≤ s.hist.born h := by
      have hsorted := newestFirst_reachable hp hr (cfg.queueNumber i)
      have hc : c ∈ s.queue (cfg.queueNumber i) := hqueue
      rw [hq] at hsorted hc
      rcases List.mem_cons.mp hc with rfl | hc
      · exact le_rfl
      · exact ((List.pairwise_cons.mp hsorted).1 c hc).le
    rcases hlater h hfront hle with hnone | ⟨j, b, rest', hb, -, hparent⟩
    · exact absurd hnone (hchild _ h hfront)
    · obtain rfl := honly j b rest' hb
      rw [hstack] at hb
      cases hb
      exact hparent
  · intro q hne
    rw [List.eq_nil_iff_forall_not_mem]
    intro x hx
    obtain ⟨p, hparent⟩ := Option.ne_none_iff_exists'.mp (hchild q x hx)
    obtain ⟨t', ht', hq', hp'⟩ := parent_on_home hr hx hparent
    have : t' = i := by omega
    exact hne (this ▸ hq')

theorem visits_of_candidate {l : Label π} {p : Point π} {h : Handle}
    (hcand : candidate cfg s l = some (p, h)) :
    ∃ n k, (s.thread l.thread).ctl = .seeking p n (.visit k) := by
  unfold candidate at hcand
  split at hcand
  next p' n k top hc hact =>
    simp only [Option.ite_none_right_eq_some, Option.map_eq_some_iff] at hcand
    obtain ⟨-, r, -, heq⟩ := hcand
    cases heq
    exact ⟨n, k, hc⟩
  next => cases hcand

/-- A task that the only worker takes is a child of the one on top of its stack. -/
theorem child_of_top (hp : cfg.policy = .cilkS ∨ cfg.policy = .lifoS) (hone : cfg.numThreads = 1)
    (hr : (system cfg).Reachable (ForkJoin cfg SingleRoot rel) s) {l : Label π}
    (hl : l.thread ≤ cfg.numThreads) {p : Point π} {h : Handle}
    (hcand : candidate cfg s l = some (p, h)) (hstep : step cfg s l = some s') :
    ∀ y ∈ (s.thread l.thread).stack.head?, s.hist.parent h = some y := by
  obtain ⟨i, -, top, rest, hpoint, hhand, hget, -⟩ := step_candidate hstep hcand
  obtain ⟨n, k, hctl⟩ := visits_of_candidate hcand
  have hth := callStack_reachable (respawn_of_forkJoin hr) l.thread hl
  have hcurrent := hth.point p hpoint
  intro y hy
  cases hf : (s.thread l.thread).frames with
  | nil => simp [Thread.stack, hhand, hf] at hy
  | cons f fs =>
    simp only [Thread.stack, hhand, hf, Option.toList_none, List.nil_append, List.map_cons,
      List.head?_cons, Option.mem_def, Option.some.injEq] at hy
    subst hy
    cases p with
    | work => simp [Point.current?, hf] at hcurrent
    | barrier current g myPhase =>
      exact absurd hpoint ((barrierFree_reachable hr l.thread).point current g myPhase)
    | wait current c =>
      have hnot : cfg.policy ≠ .fifoS := by rcases hp with hp | hp <;> simp [hp]
      obtain ⟨h', rest', hq, hparent, hempty⟩ := newest_child hnot hone hr
        (hth.lt_of_point hl hpoint) ⟨current, n, k, hctl⟩ hf
      have hi : i = cfg.queueNumber l.thread := by
        by_contra hne
        have hmem := mem_of_testAndGet hget
        rw [hempty i hne] at hmem
        cases hmem
      subst hi
      have hx := (testAndGet_eq_some hget).1
      have hpos : position cfg.policy true top (s.queue (cfg.queueNumber l.thread)) = 0 := by
        rcases hp with hp | hp <;> rw [hp] <;> rfl
      rw [beq_self_eq_true, hpos, hq, List.getElem?_cons_zero] at hx
      cases hx
      exact hparent

/-- Each task on a stack is a child of the one below it. -/
def State.Paths (s : State π) : Prop :=
  ∀ t, (s.thread t).stack.IsChain fun a p => s.hist.parent a = some p

theorem paths_reachable (hp : cfg.policy = .cilkS ∨ cfg.policy = .lifoS)
    (hone : cfg.numThreads = 1) (hr : (system cfg).Reachable (ForkJoin cfg SingleRoot rel) s) :
    s.Paths := by
  refine hr.invariant' (I := State.Paths) ?_ ?_
  · intro t
    by_cases ht : t = cfg.numThreads <;>
      simp [system, initial, Thread.stack, Ctl.hand, getTask, ht]
  intro s l s' hr hs hd hstep t
  obtain ⟨hl, he⟩ := step_effect hstep
  cases hcand : candidate cfg s l with
  | none =>
    have hsuffix : (s'.thread t).stack <:+ (s.thread t).stack := by
      by_cases htl : t = l.thread
      · subst htl
        exact he.stack_suffix hcand
      · rw [he.other htl]
    refine ((hs t).suffix hsuffix).imp_of_mem_imp ?_
    intro a p ha _ hap
    rcases parent_cases he a with hsame | ⟨q, hc, -⟩
    · rw [hsame]
      exact hap
    · exact absurd (.inr ⟨t, hsuffix.subset ha⟩)
        (not_active_of_spawning (respawn_of_forkJoin hr) hl hc)
  | some r =>
    obtain ⟨p, h⟩ := r
    obtain ⟨i, -, top, rest, hpoint, hhand, -, rfl⟩ := step_candidate hstep hcand
    by_cases htl : t = l.thread
    · subst htl
      rw [take_stack hhand]
      exact (hs l.thread).cons (child_of_top hp hone hr hl hcand hstep)
    · rw [he.other htl]
      exact hs t

/-- A chain whose values fall by one is as long as they fall. -/
theorem length_of_chain {W : Type} {f : W → ℕ} {ws : List W}
    (h : ws.IsChain fun a p => f a = f p + 1) {a r : W} (ha : a ∈ ws.head?) (hr : r ∈ ws.getLast?) :
    f a + 1 = f r + ws.length := by
  induction ws generalizing a with
  | nil => cases ha
  | cons x ws ih =>
    obtain rfl : x = a := by simpa using ha
    cases ws with
    | nil =>
      obtain rfl : x = r := by simpa using hr
      rfl
    | cons y ws =>
      obtain ⟨hxy, hrest⟩ := List.isChain_cons_cons.mp h
      have hle : f y + 1 = f r + (y :: ws).length := ih hrest rfl (by simpa using hr)
      rw [List.length_cons, hxy]
      omega

/-- A stack is the path from the root to the task on top. -/
structure State.DepthFirst (s : State π) (t : ℕ) : Prop where
  path : (s.thread t).stack.IsChain fun a p => s.hist.parent a = some p
  bottom : ∀ r ∈ (s.thread t).stack.getLast?, s.hist.parent r = none
  height : ∀ a ∈ (s.thread t).stack.head?, ∀ r ∈ (s.thread t).stack.getLast?,
    (s.task a).attr.level + 1 = (s.task r).attr.level + (s.thread t).stack.length

theorem depth_first (hp : cfg.policy = .cilkS ∨ cfg.policy = .lifoS) (hone : cfg.numThreads = 1)
    (hr : (system cfg).Reachable (ForkJoin cfg SingleRoot fun a c => c.level = a.level + 1) s)
    (t : ℕ) : s.DepthFirst t where
  path := paths_reachable hp hone hr t
  bottom := by
    intro r hr'
    have hinv := (joined_reachable hr).invariant
    have hmem : r ∈ (s.thread t).stack := List.mem_of_getLast? hr'
    cases hparent : s.hist.parent r with
    | none => rfl
    | some p =>
      -- the parent would be on the same stack, and below
      obtain ⟨t', hp'⟩ := hinv.parent_mem r p (.inr ⟨t, hmem⟩) hparent
      have hborn : s.hist.began p < s.hist.born r := hinv.began_born r p (.inr ⟨t, hmem⟩) hparent
      have hbegan : s.hist.born r < s.hist.began r := hinv.born_began r t hmem
      have hr₀ := respawn_of_forkJoin hr
      have ht := lt_numThreads_of_mem hr₀ hmem
      have ht' := lt_numThreads_of_mem hr₀ hp'
      obtain rfl : t' = t := by omega
      obtain ⟨above, habove⟩ := List.getLast?_eq_some_iff.mp hr'
      have hsorted : (s.thread t').stack.Pairwise fun a p => s.hist.began p < s.hist.began a :=
        hinv.sorted t'
      have hmem' : p ∈ (s.thread t').stack := hp'
      rw [habove] at hsorted hmem'
      rcases List.mem_append.mp hmem' with hin | hin
      · have := (List.pairwise_append.mp hsorted).2.2 p hin r (by simp)
        omega
      · obtain rfl := List.mem_singleton.mp hin
        omega
  height := by
    intro a ha r hr'
    refine length_of_chain (f := fun x => (s.task x).attr.level) ?_ ha hr'
    refine (paths_reachable hp hone hr t).imp_of_mem_imp ?_
    intro x y hx _ hxy
    exact (joined_reachable hr).invariant.value_rel x y (.inr ⟨t, hx⟩) hxy

/-- The only worker runs a grandchild of the root while two children of the root are queued. -/
def descentRun : List (Label ℕ) :=
  [⟨1, .spawn 0 (.new 0 false false) 0⟩] ++ ticks 1 1 ++ ticks 0 4 ++
    [⟨0, .spawn 1 { Attribute.new 0 true false with level := 1 } 0⟩] ++ ticks 0 1 ++
    [⟨0, .spawn 2 { Attribute.new 0 true false with level := 1 } 0⟩] ++ ticks 0 1 ++
    [⟨0, .wait 1⟩] ++ ticks 0 4 ++
    [⟨0, .spawn 3 { Attribute.new 0 true false with level := 2 } 0⟩] ++ ticks 0 1 ++
    [⟨0, .wait 3⟩] ++ ticks 0 4

theorem depth_first_descentRun :
    (((system (.small .lifoS [1])).final descentRun).thread 0).stack = [3, 2, 0] ∧
      ((system (.small .lifoS [1])).final descentRun).DepthFirst 0 :=
  ⟨by decide, depth_first (by decide) (by decide) (System.reachable_final (by decide)) 0⟩

end PFunc.TaskManager
