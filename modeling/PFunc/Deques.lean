import PFunc.ServiceOrder
import PFunc.WorkerStacks

/-!
# The deques of a program with one root

Each worker has a deque of its own under `cilkS`. In a fork-join program with a single root
a task that is queued is a child of one on the stack of the deque's owner, and the
levels in a deque do not fall from the back to the front. A thief therefore takes a
task of the lowest level there is in the deque, and the owner one of the highest.
-/

namespace PFunc.TaskManager

open LabelledRuns Atomics Event QueueSet

variable {π : Type} {cfg : Config π} {s s' : State π}
variable {root : State π → Attribute π → Prop} {rel : Attribute π → Attribute π → Prop}

/-- Each queue has one worker. -/
def Config.OneEach (cfg : Config π) : Prop := ∀ n ∈ cfg.threadsPerQueue, n = 1

instance (cfg : Config π) : Decidable cfg.OneEach := by
  unfold Config.OneEach
  infer_instance

theorem Config.OneEach.queueNumber (h : cfg.OneEach) {t : ℕ} (ht : t < cfg.numThreads) :
    cfg.queueNumber t = t := by
  have hrep : cfg.threadsPerQueue = List.replicate cfg.threadsPerQueue.length 1 :=
    List.eq_replicate_of_mem h
  have hlen : cfg.threadsPerQueue.length = cfg.numThreads := by
    rw [Config.numThreads, hrep]
    simp
  have hmap : (cfg.threadsPerQueue.zipIdx.flatMap fun e => List.replicate e.1 e.2) =
      cfg.threadsPerQueue.zipIdx.flatMap fun e => [e.2] := by
    refine List.flatMap_congr fun e he => ?_
    rw [h e.1 (List.fst_mem_of_mem_zipIdx he)]
    rfl
  unfold Config.queueNumber
  rw [hmap, ← List.map_eq_flatMap, List.zipIdx_map_snd]
  simp [List.getD_eq_getElem?_getD, hlen, ht]

/-! ### What is queued -/

/-- Under every policy but `fifoS` the tasks put later come first. -/
def State.NewestFirst (s : State π) : Prop :=
  ∀ q, (s.queue q).Pairwise fun f c => s.hist.born c < s.hist.born f

theorem newestFirst_reachable (hp : cfg.policy ≠ .fifoS)
    (hr : (system cfg).Reachable (ForkJoin cfg root rel) s) : s.NewestFirst := by
  refine hr.invariant' (I := State.NewestFirst) (fun _ => .nil) ?_
  intro s l s' hr hs hd hstep
  obtain ⟨hl, he⟩ := step_effect hstep
  have hr' := respawn_of_forkJoin hr
  intro q
  rcases he.queue_cases with ⟨hq, -, hborn, -⟩ | ⟨h, i, hc, rfl⟩ |
    ⟨p, i, top, h, rest, -, hget, rfl⟩
  · rw [hq, hborn]
    exact hs q
  · have hnew : ∀ c ∈ s.queue q, c ≠ h := by
      rintro c hmem rfl
      exact not_active_of_spawning hr' hl hc (.inl ⟨q, hmem⟩)
    have hold : (s.queue q).Pairwise fun f c =>
        (s.put cfg l.thread h i).hist.born c < (s.put cfg l.thread h i).hist.born f := by
      refine (hs q).imp_of_mem ?_
      intro f c hf hc hfc
      simpa [State.put, State.goto, State.setThread, History.enter, hnew f hf, hnew c hc] using hfc
    by_cases hi : q = i
    · subst hi
      have hqueue : (s.put cfg l.thread h q).queue q = h :: s.queue q := by
        cases hpol : cfg.policy <;>
          simp_all [State.put, State.goto, State.setThread, QueueSet.put]
      rw [hqueue, List.pairwise_cons]
      refine ⟨?_, hold⟩
      intro c hmem
      have hlt : s.hist.born c < s.hist.clock :=
        (joined_reachable hr).invariant.born_lt c (.inl ⟨q, hmem⟩)
      simpa [State.put, State.goto, State.setThread, History.enter, hnew c hmem] using hlt
    · have hqueue : (s.put cfg l.thread h i).queue q = s.queue q := Function.update_of_ne hi _ _
      rw [hqueue]
      exact hold
  · have hsub : ((s.take l.thread p i h rest).queue q).Sublist (s.queue q) := by
      by_cases hi : q = i
      · subst hi
        simpa [State.take, State.goto, State.setThread] using sublist_of_testAndGet hget
      · simp [State.take, State.goto, State.setThread, hi]
    exact (hs q).sublist hsub

/-- A task on a stack was put and taken. -/
theorem two_le_clock (hr : (system cfg).Reachable (ForkJoin cfg root rel) s) {t : ℕ} {h : Handle}
    (hh : h ∈ (s.thread t).stack) : 2 ≤ s.hist.clock := by
  have hinv := (joined_reachable hr).invariant
  have hborn : s.hist.born h < s.hist.began h := hinv.born_began h t hh
  have hbegan : s.hist.began h < s.hist.clock := hinv.began_lt h t hh
  omega

/-- As long as the root is queued nothing else is. -/
theorem root_alone (hr : (system cfg).Reachable (ForkJoin cfg SingleRoot rel) s) {q : ℕ}
    {h : Handle} (hh : h ∈ s.queue q) (hroot : s.hist.parent h = none) :
    s.hist.clock = 1 ∧ ∀ i, ∀ x ∈ s.queue i, x = h := by
  refine hr.invariant' (I := fun s => ∀ q, ∀ h ∈ s.queue q, s.hist.parent h = none →
    s.hist.clock = 1 ∧ ∀ i, ∀ x ∈ s.queue i, x = h) ?_ ?_ q h hh hroot
  · intro q h hh
    cases hh
  intro s l s' hr hs hd hstep q h hh hroot
  obtain ⟨hl, he⟩ := step_effect hstep
  have hr' := respawn_of_forkJoin hr
  rcases he.queue_cases with ⟨hq, hparent, -, hclock⟩ | ⟨x, i, hc, rfl⟩ |
    ⟨p, i, top, x, rest, hi, hget, rfl⟩
  · rw [hq] at hh ⊢
    rw [hparent] at hroot
    rw [hclock]
    exact hs q h hh hroot
  · have hth := callStack_reachable hr' l.thread hl
    rcases Nat.lt_or_eq_of_le hl with hlt | hmain
    · -- the task on top has a child now, and it was put and taken itself
      obtain ⟨f, fs, hf⟩ := List.exists_cons_of_ne_nil (hth.worker hlt (by rw [hc]; rfl))
      have htwo : 2 ≤ s.hist.clock :=
        two_le_clock hr (t := l.thread) (h := f.task) (by simp [Thread.stack, hf])
      by_cases hx : h = x
      · subst hx
        simp [State.put, State.goto, State.setThread, hf] at hroot
      · have hmem : h ∈ s.queue q := by
          by_cases hi : q = i
          · subst hi
            simpa [State.put, State.goto, State.setThread, hx] using hh
          · simpa [State.put, State.goto, State.setThread, hi] using hh
        have hone := (hs q h hmem
          (by simpa [State.put, State.goto, State.setThread, History.enter, hx] using hroot)).1
        omega
    · have hzero := clock_eq_zero hr (hmain ▸ hc)
      have hempty : ∀ j y, y ∉ s.queue j := by
        intro j y hy
        have : s.hist.born y < s.hist.clock :=
          (joined_reachable hr).invariant.born_lt y (.inl ⟨j, hy⟩)
        omega
      have honly : ∀ j, ∀ y ∈ (s.put cfg l.thread x i).queue j, y = x := by
        intro j y hy
        by_cases hj : j = i
        · subst hj
          simpa [State.put, State.goto, State.setThread, hempty] using hy
        · simp [State.put, State.goto, State.setThread, hj, hempty] at hy
      refine ⟨by simp [State.put, State.goto, State.setThread, History.enter, hzero], ?_⟩
      intro j y hy
      rw [honly j y hy, honly q h hh]
  · have hmem : h ∈ s.queue q ∧ (q = i → h ∈ rest) := by
      by_cases hqi : q = i
      · subst hqi
        have hin : h ∈ rest := by simpa [State.take, State.goto, State.setThread] using hh
        exact ⟨(sublist_of_testAndGet hget).subset hin, fun _ => hin⟩
      · exact ⟨by simpa [State.take, State.goto, State.setThread, hqi] using hh,
          fun hn => absurd hn hqi⟩
    -- the task taken was the root
    have hxh := (hs q h hmem.1 hroot).2 i x (mem_of_testAndGet hget)
    subst hxh
    have hqi : q = i := (joined_reachable hr).invariant.queue_unique x q i hmem.1
      (mem_of_testAndGet hget)
    exact absurd (hmem.2 hqi) (not_mem_rest hr' hi hget)

/-- A queued child is in the queue of the worker whose stack its parent is on. -/
theorem parent_on_home (hr : (system cfg).Reachable (ForkJoin cfg root rel) s) {q : ℕ}
    {c p : Handle} (hc : c ∈ s.queue q) (hp : s.hist.parent c = some p) :
    ∃ t < cfg.numThreads, q = cfg.queueNumber t ∧ p ∈ (s.thread t).stack := by
  have hinv := (joined_reachable hr).invariant
  obtain ⟨t, ht⟩ := hinv.parent_mem c p (.inl ⟨q, hc⟩) hp
  exact ⟨t, lt_numThreads_of_mem (respawn_of_forkJoin hr) ht, hinv.home_eq c p q t hc hp ht, ht⟩

/-! ### The order of a deque -/

theorem or_of_pairwise {W : Type} {R : W → W → Prop} {ws : List W} (h : ws.Pairwise R) {a b : W}
    (ha : a ∈ ws) (hb : b ∈ ws) (hne : a ≠ b) : R a b ∨ R b a := by
  have : Std.Symm fun x y => R x y ∨ R y x := ⟨fun _ _ => Or.symm⟩
  exact (h.imp Or.inl : ws.Pairwise fun x y => R x y ∨ R y x).forall ha hb hne

/-- Of two tasks on a stack, the lower one has a level that is not higher, and its active
children were put before the upper one was taken. -/
theorem stack_levels (hp : cfg.policy = .cilkS)
    (hr : (system cfg).Reachable (ForkJoin cfg root rel) s) {t : ℕ} (ht : t ≤ cfg.numThreads) :
    (s.thread t).stack.Pairwise fun a p => (s.task p).attr.level ≤ (s.task a).attr.level ∧
      ∀ c, s.toStacks.Active c → s.hist.parent c = some p → s.hist.born c < s.hist.began a :=
  (stacked_reachable (admits_levels hp) (respawn_of_forkJoin hr) t ht).and
    ((joined_reachable hr).invariant.suspended t)

theorem levels_sorted (hp : cfg.policy = .cilkS) (hone : cfg.OneEach)
    (hr : (system cfg).Reachable (ForkJoin cfg SingleRoot fun a c => c.level = a.level + 1) s)
    (q : ℕ) : (s.queue q).Pairwise fun f c => (s.task c).attr.level ≤ (s.task f).attr.level := by
  have hinv := (joined_reachable hr).invariant
  refine (newestFirst_reachable (by simp [hp]) hr q).imp_of_mem ?_
  intro f c hf hc hborn
  have hparent : ∀ x ∈ s.queue q, ∃ p, s.hist.parent x = some p := by
    intro x hx
    cases hpx : s.hist.parent x with
    | some p => exact ⟨p, rfl⟩
    | none =>
      have halone := (root_alone hr hx hpx).2 q
      rw [halone f hf, halone c hc] at hborn
      exact absurd hborn (Nat.lt_irrefl _)
  obtain ⟨pf, hpf⟩ := hparent f hf
  obtain ⟨pc, hpc⟩ := hparent c hc
  have hlevel : ∀ x p, x ∈ s.queue q → s.hist.parent x = some p →
      (s.task x).attr.level = (s.task p).attr.level + 1 :=
    fun x p hx hxp => hinv.value_rel x p (.inl ⟨q, hx⟩) hxp
  rw [hlevel f pf hf hpf, hlevel c pc hc hpc]
  obtain ⟨t, ht, hqt, htf⟩ := parent_on_home hr hf hpf
  obtain ⟨t', ht', hqt', htc⟩ := parent_on_home hr hc hpc
  have htt : t' = t := by
    rw [hone.queueNumber ht] at hqt
    rw [hone.queueNumber ht'] at hqt'
    omega
  subst htt
  by_cases hpp : pf = pc
  · rw [hpp]
  -- the parent of the task put later is the upper one
  rcases or_of_pairwise (stack_levels hp hr ht'.le) htf htc hpp with ⟨hle, -⟩ | ⟨-, hsuspended⟩
  · omega
  · have hbegan : s.hist.began pc < s.hist.born c := hinv.began_born c pc (.inl ⟨q, hc⟩) hpc
    have := hsuspended f (.inl ⟨q, hf⟩) hpf
    omega

/-- A task leaves a queue when a worker takes it at a scheduling point. -/
theorem Effect.taken {l : Label π} (he : Effect cfg s l s') {q : ℕ} {h : Handle}
    (hh : h ∈ s.queue q) (hgone : h ∉ s'.queue q) :
    ∃ p top rest, (s.thread l.thread).ctl.point = some p ∧
      testAndGet cfg.policy (q == cfg.queueNumber l.thread) top (p.predicate cfg s) (s.queue q) =
        some (h, rest) := by
  cases he with
  | put x i hact hctl =>
    refine absurd ?_ hgone
    by_cases hi : q = i
    · subst hi
      simp [State.put, State.goto, State.setThread, hh]
    · simpa [State.put, State.goto, State.setThread, hi] using hh
  | take p n k i top x rest hctl hi hact hk hik htop hget =>
    have hqi : q = i := by
      by_contra hne
      exact hgone (by simpa [State.take, State.goto, State.setThread, hne] using hh)
    subst hqi
    have hxh : x = h := by
      have hrest : h ∉ rest := by simpa [State.take, State.goto, State.setThread] using hgone
      have hcount := count_testAndGet (x := h) hget
      rw [List.count_eq_zero.mpr hrest] at hcount
      have hpos := List.count_pos_iff.mpr hh
      by_contra hne
      rw [if_neg hne] at hcount
      omega
    exact ⟨p, top, rest, by rw [hctl]; rfl, hxh ▸ hget⟩
  | leave x hctl => exact absurd (by rwa [leave_queue]) hgone
  | _ => exact absurd hh hgone

/-- A deque belongs to its worker: its levels are sorted, its tasks are children of
tasks on the owner's stack, and while the owner takes a task of the highest level, a thief takes
one of the lowest. -/
structure State.DequeOf (cfg : Config π) (s : State π) (q : ℕ) : Prop where
  sorted : (s.queue q).Pairwise fun f c => (s.task c).attr.level ≤ (s.task f).attr.level
  parents : ∀ c ∈ s.queue q, ∀ p, s.hist.parent c = some p → p ∈ (s.thread q).stack
  taken : ∀ l s' h, step cfg s l = some s' → h ∈ s.queue q → h ∉ s'.queue q →
    ∀ c ∈ s.queue q, if q = l.thread then (s.task c).attr.level ≤ (s.task h).attr.level
      else (s.task h).attr.level ≤ (s.task c).attr.level

theorem deques_owned (hp : cfg.policy = .cilkS) (hone : cfg.OneEach)
    (hr : (system cfg).Reachable (ForkJoin cfg SingleRoot fun a c => c.level = a.level + 1) s)
    (q : ℕ) : s.DequeOf cfg q where
  sorted := levels_sorted hp hone hr q
  parents := by
    intro c hc p hcp
    obtain ⟨t, ht, hq, hmem⟩ := parent_on_home hr hc hcp
    rw [hone.queueNumber ht] at hq
    exact hq ▸ hmem
  taken := by
    intro l s' h hstep hh hgone c hc
    have hsorted := List.pairwise_iff_getElem.mp (levels_sorted hp hone hr q)
    obtain ⟨hl, he⟩ := step_effect hstep
    obtain ⟨p, top, rest, hpoint, hget⟩ := he.taken hh hgone
    have hlt : l.thread < cfg.numThreads :=
      (callStack_reachable (respawn_of_forkJoin hr) l.thread hl).lt_of_point hl hpoint
    have hx := (testAndGet_eq_some hget).1
    rw [hone.queueNumber hlt, hp] at hx
    obtain ⟨j, hj, rfl⟩ := List.getElem_of_mem hc
    split
    next hown =>
      rw [beq_iff_eq.mpr hown] at hx
      obtain ⟨hat, rfl⟩ := List.getElem?_eq_some_iff.mp hx
      rcases Nat.eq_zero_or_pos j with rfl | hpos
      · exact le_rfl
      · exact hsorted 0 j hat hj hpos
    next hother =>
      rw [beq_false_of_ne hother] at hx
      obtain ⟨hat, rfl⟩ := List.getElem?_eq_some_iff.mp hx
      rcases Nat.lt_or_ge j ((s.queue q).length - 1) with hlt' | hge
      · exact hsorted j _ hj hat hlt'
      · have hlast : j = (s.queue q).length - 1 := by omega
        subst hlast
        exact le_rfl

/-- A child of the root is queued when a worker that runs another one spawns a grandchild. -/
def grandchildRun : List (Label ℕ) :=
  [⟨2, .spawn 0 (.new 0 false false) 0⟩] ++ ticks 2 1 ++ ticks 0 4 ++
    [⟨0, .spawn 1 { Attribute.new 0 true false with level := 1 } 0⟩] ++ ticks 0 1 ++
    [⟨0, .spawn 2 { Attribute.new 0 true false with level := 1 } 0⟩] ++ ticks 0 1 ++
    [⟨0, .wait 1⟩] ++ ticks 0 4 ++
    [⟨0, .spawn 3 { Attribute.new 0 true false with level := 2 } 0⟩] ++ ticks 0 1

theorem deques_owned_grandchildRun :
    ((system (.small .cilkS [1, 1])).final grandchildRun).queue 0 = [3, 1] ∧
      ((system (.small .cilkS [1, 1])).final grandchildRun).DequeOf (.small .cilkS [1, 1]) 0 :=
  ⟨by decide, deques_owned (by decide) (by decide) (System.reachable_final (by decide)) 0⟩

end PFunc.TaskManager
