import PFunc.Levels
import Mathlib.Order.Defs.Unbundled

/-!
# Priorities and the strictness of the waiting predicate

Under `prioS` a waiting worker takes a task only if the suspended one comes before it, so a
queued child of its own priority is not admitted. If every child that a task waits for
while it is queued has a higher priority, the top of the queue is admitted.
-/

namespace PFunc.TaskManager

open LabelledRuns Atomics Event QueueSet

variable {π : Type} {cfg : Config π} {s s' : State π}
variable {root : State π → Attribute π → Prop} {rel : Attribute π → Attribute π → Prop}

/-- A call of `wait` for a queued task comes from a task of lower priority. -/
def WaitsForHigher (cfg : Config π) (s : State π) (l : Label π) : Prop :=
  match l.act, (s.thread l.thread).frames with
  | .wait h, f :: _ => (∃ q < cfg.numQueues, h ∈ s.queue q) →
      cfg.comp (s.task f.task).attr.priority (s.task h).attr.priority
  | _, _ => True

instance (cfg : Config π) (s : State π) (l : Label π) : Decidable (WaitsForHigher cfg s l) := by
  unfold WaitsForHigher
  rcases l.act with ⟨⟩ <;> rcases (s.thread l.thread).frames with ⟨⟩ <;> infer_instance

/-- Queued tasks that are awaited have a higher priority than the tasks that wait. -/
def State.HigherAwaited (cfg : Config π) (s : State π) : Prop :=
  ∀ t ≤ cfg.numThreads, ∀ a c, (a, c) ∈ (s.thread t).waitPairs → ∀ q, c ∈ s.queue q →
    cfg.comp (s.task a).attr.priority (s.task c).attr.priority

theorem mem_queue_of_effect {l : Label π} (he : Effect cfg s l s') {c : Handle}
    (hc : ∀ q, (s.thread l.thread).ctl ≠ .spawning c q) {q : ℕ} (hq : c ∈ s'.queue q) :
    c ∈ s.queue q := by
  rcases he.queue_cases with ⟨hqueue, -⟩ | ⟨h, q', hctl, rfl⟩ | ⟨p, i, top, h, rest, -, hget, rfl⟩
  · rwa [hqueue] at hq
  · by_cases hqq : q = q'
    · subst hqq
      have hmem : c = h ∨ c ∈ s.queue q := by
        simpa [State.put, State.goto, State.setThread] using hq
      refine hmem.resolve_left ?_
      intro hch
      subst hch
      exact hc q hctl
    · simpa [State.put, State.goto, State.setThread, hqq] using hq
  · by_cases hqi : q = i
    · subst hqi
      have hmem : c ∈ rest := by simpa [State.take, State.goto, State.setThread] using hq
      exact (sublist_of_testAndGet hget).subset hmem
    · simpa [State.take, State.goto, State.setThread, hqi] using hq

theorem higherAwaited_effect {l : Label π}
    (hr : (system cfg).Reachable (ForkJoin cfg root rel) s) (hs : s.HigherAwaited cfg)
    (hd : ForkJoin cfg root rel s l) (hhigher : WaitsForHigher cfg s l)
    (hl : l.thread ≤ cfg.numThreads) (he : Effect cfg s l s') : s'.HigherAwaited cfg := by
  have hr' := respawn_of_forkJoin hr
  have hj := joined_reachable hr
  intro t ht a c hw q hq
  have hold : s.hist.parent c = some a ∧ (∀ q, (s.thread l.thread).ctl ≠ .spawning c q) ∧
      (c ∈ s.queue q → cfg.comp (s.task a).attr.priority (s.task c).attr.priority) := by
    rcases he.waitPairs hw with hw | ⟨rfl, hact, hhead⟩
    · exact ⟨hj.parent t ht a c hw, fun q hc => hj.unawaited _ hl c q hc t ht a hw,
        hs t ht a c hw q⟩
    · obtain ⟨hmem, hparent⟩ := mem_of_waits hd hact hhead
      refine ⟨hparent, fun q hc => (hj.spawning _ hl c q hc).1 hmem, ?_⟩
      intro hqueued
      have hlt : q < cfg.numQueues := by
        by_contra hge
        have hnil := (outside_reachable hr').2 q (by omega)
        rw [hnil] at hqueued
        cases hqueued
      obtain ⟨f, hf, rfl⟩ := Option.map_eq_some_iff.mp hhead
      obtain ⟨fs, hfs⟩ := List.head?_eq_some_iff.mp hf
      simp only [WaitsForHigher, hact, hfs] at hhigher
      exact hhigher ⟨q, hlt, hqueued⟩
  obtain ⟨hparent, hspawning, hcomp⟩ := hold
  have hqueued := mem_queue_of_effect he hspawning hq
  have hactive : s.toStacks.Active c := .inl ⟨q, hqueued⟩
  have hactive' : s.toStacks.Active a := .inr (hj.invariant.parent_mem c a hactive hparent)
  rw [he.attr_of_active hr' hd.1 hactive, he.attr_of_active hr' hd.1 hactive']
  exact hcomp hqueued

/-- What comes after an element does not come before all that comes after it. -/
theorem comp_of_not_comp {comp : π → π → Bool} (hcomp : IsStrictWeakOrder π fun x y => comp x y)
    {x y z : π} (hxz : comp x z) (hyz : comp y z = false) : comp x y := by
  by_contra hxy
  have hyx : ¬comp y x := by
    intro hyx
    have := hcomp.trans _ _ _ hyx hxz
    rw [hyz] at this
    cases this
  by_cases hzy : comp z y
  · exact hxy (hcomp.trans _ _ _ hxz hzy)
  · have hinc := hcomp.incomp_trans x y z ⟨hxy, hyx⟩ ⟨by simp [hyz], hzy⟩
    exact hinc.1 hxz

/-- A strict order has a top in every queue. -/
theorem exists_legitTop {W : Type} (p : Policy) {before : W → W → Bool}
    (hirrefl : ∀ x, before x x = false) (htrans : ∀ x y z, before x y → before y z → before x z)
    (queue : List W) : ∃ top, LegitTop p before queue top := by
  have hmax : queue = [] ∨ ∃ w ∈ queue, ∀ x ∈ queue, before w x = false := by
    induction queue with
    | nil => exact .inl rfl
    | cons a as ih =>
      right
      rcases ih with rfl | ⟨w, hw, hno⟩
      · exact ⟨a, by simp, by simp [hirrefl]⟩
      · by_cases hwa : before w a
        · refine ⟨a, by simp, fun x hx => ?_⟩
          rcases List.mem_cons.mp hx with rfl | hx
          · exact hirrefl x
          · by_contra hax
            rw [Bool.not_eq_false] at hax
            have := htrans w a x hwa hax
            rw [hno x hx] at this
            cases this
        · refine ⟨w, by simp [hw], fun x hx => ?_⟩
          rcases List.mem_cons.mp hx with rfl | hx
          · simpa using hwa
          · exact hno x hx
  rcases hmax with hnil | ⟨w, hw, hno⟩
  · exact ⟨0, fun _ => .inl hnil⟩
  · obtain ⟨top, htop⟩ := List.mem_iff_getElem?.mp hw
    exact ⟨top, fun _ => .inr ⟨w, htop, hno⟩⟩

theorem exists_top (hcomp : cfg.policy = .prioS → IsStrictWeakOrder π fun x y => cfg.comp x y)
    (s : State π) (q : ℕ) :
    ∃ top, LegitTop cfg.policy (compareTaskPtr cfg s) (s.queue q) top := by
  by_cases hp : cfg.policy = .prioS
  · have hord := hcomp hp
    apply exists_legitTop
    · intro x
      simpa [compareTaskPtr] using hord.irrefl (s.task x).attr.priority
    · intro x y z hxy hyz
      exact hord.trans _ _ _ hxy hyz
  · exact ⟨0, fun h => absurd h hp⟩

/-- A worker that waits for a queued task of higher priority takes one of higher priority. -/
theorem not_stuck_of_higherAwaited (hp : cfg.policy = .prioS) (hpos : 0 < cfg.numThreads)
    (hcomp : IsStrictWeakOrder π fun x y => cfg.comp x y)
    (hfork : (system cfg).Reachable (ForkJoin cfg root rel) s) (hhigher : s.HigherAwaited cfg) :
    ¬s.Stuck cfg := by
  intro hstuck
  obtain ⟨hincomplete, top, htop, hblocked⟩ := hstuck
  obtain ⟨t, ht, a, c, hw, hc, -⟩ := stuck_waiter hfork hpos hincomplete htop hblocked
  have hqueue := Config.queueNumber_lt ht
  have hac := hhigher t (by omega) a c hw.mem_waitPairs _ hc
  obtain ⟨x, hx, hmax⟩ := (htop _ hqueue hp).resolve_left (List.ne_nil_of_mem hc)
  have hax : cfg.comp (s.task a).attr.priority (s.task x).attr.priority :=
    comp_of_not_comp hcomp hac (hmax c hc)
  obtain ⟨rest, ha⟩ := hw.stack
  rcases blocked_cases hfork ht (hblocked t ht) with ⟨hnil, -⟩ | ⟨b, c', hw', -, hno⟩
  · rw [ha] at hnil
    cases hnil
  · obtain ⟨rest', hb⟩ := hw'.stack
    rw [ha] at hb
    cases hb
    have hfalse := hno _ hqueue x (by simpa [hp, position] using hx)
    simp only [Policy.waitingPred, hp, hax] at hfalse
    cases hfalse

/-- No state of a fork-join program with a single root is stuck, if every child awaited while it
is queued has a higher priority than the task that waits. -/
theorem higher_children_not_stuck (hp : cfg.policy = .prioS) (hpos : 0 < cfg.numThreads)
    (hcomp : IsStrictWeakOrder π fun x y => cfg.comp x y)
    (hr : (system cfg).Reachable (fun s l =>
      ForkJoin cfg SingleRoot (fun a c => cfg.comp c.priority a.priority = false) s l ∧
        WaitsForHigher cfg s l) s) : ¬s.Stuck cfg := by
  have hfork : (system cfg).Reachable (ForkJoin cfg SingleRoot fun a c =>
      cfg.comp c.priority a.priority = false) s := hr.mono fun _ _ hd => hd.1
  have hhigher : s.HigherAwaited cfg := by
    refine hr.invariant' (I := fun s => s.HigherAwaited cfg) ?_ ?_
    · intro t _ a c _ q hq
      cases hq
    · intro s l s' hr hs hd hstep
      obtain ⟨hl, he⟩ := step_effect hstep
      exact higherAwaited_effect (hr.mono fun _ _ hd => hd.1) hs hd.1 hd.2 hl he
  exact not_stuck_of_higherAwaited hp hpos hcomp hfork hhigher

/-- The root waits for a queued child of the given priority. -/
def priorityRun (priority : ℕ) : List (Label ℕ) :=
  [⟨1, .spawn 0 (.new 0 false false) 0⟩] ++ ticks 1 1 ++ ticks 0 4 ++
    [⟨0, .spawn 1 { Attribute.new 0 true false with priority := priority } 0⟩] ++ ticks 0 1 ++
    [⟨0, .wait 1⟩]

theorem lt_isStrictWeakOrder (policy : Policy) (threadsPerQueue : List ℕ) :
    IsStrictWeakOrder ℕ fun x y => (Config.small policy threadsPerQueue).comp x y where
  irrefl := by simp [Config.small]
  trans := by
    intro x y z hxy hyz
    simp only [Config.small, decide_eq_true_eq] at hxy hyz ⊢
    omega
  incomp_trans := by
    intro x y z hxy hyz
    simp only [Config.small, decide_eq_true_eq] at hxy hyz ⊢
    omega

theorem higher_children_not_stuck_priorityRun :
    ((system (.small .prioS [1])).final (priorityRun 1)).queue 0 = [1] ∧
      ¬((system (.small .prioS [1])).final (priorityRun 1)).Stuck (.small .prioS [1]) :=
  ⟨by decide, higher_children_not_stuck rfl (by decide) (lt_isStrictWeakOrder _ _)
    (System.reachable_final (by decide))⟩

/-- A child of its parent's priority is queued, and its parent waits for it for ever. -/
theorem equal_priorities_stuck :
    IsStrictWeakOrder ℕ (fun x y => (Config.small .prioS [1]).comp x y) ∧
      (system (.small .prioS [1])).Reachable
        (ForkJoin (.small .prioS [1]) SingleRoot fun a c =>
          (Config.small .prioS [1]).comp c.priority a.priority = false)
        ((system (.small .prioS [1])).final (priorityRun 0)) ∧
      ((system (.small .prioS [1])).final (priorityRun 0)).queue 0 = [1] ∧
      ((system (.small .prioS [1])).final (priorityRun 0)).Stuck (.small .prioS [1]) :=
  ⟨lt_isStrictWeakOrder _ _, System.reachable_final (by decide), by decide,
    ⟨1, by decide⟩, fun _ => 0, by decide, by decide⟩

end PFunc.TaskManager
