import PFunc.GroupStacks
import PFunc.Priorities

/-!
# The stack of a worker

A worker's cache describes the task whose functor runs on top of its stack, so what a functor
asks about the current task is answered for itself. A task comes onto a stack that is not
empty only past a predicate that compares it with the task on top, and what that comparison
implies, if it is transitive, holds along the whole stack.
-/

namespace PFunc.TaskManager

open LabelledRuns Atomics Event QueueSet

variable {π : Type} {cfg : Config π} {s s' : State π}

/-! ### The current task -/

/-- `current_task_group_rank` -/
def currentTaskGroupRank (s : State π) (t : ℕ) : Word := (s.thread t).cache.grank

/-- `current_task_group_size` -/
def currentTaskGroupSize (s : State π) (t : ℕ) : ℕ := (s.thread t).cache.gsize

/-- `barrier` of a task's group, called on thread `t`. -/
def groupBarrier (s : State π) (t : ℕ) (grp : Option GroupId) : Option (State π) :=
  match grp with
  | none => none
  | some g =>
    let x := s.group g
    if 1 < x.groupSize ∧ x.typeOfBarrier = .steal then
      let r := x.arrive
      some ((s.setGroup g r.1).goto t (if r.2 then .spinning g x.barrierPhase else .functor))
    else some s

theorem barrier_eq (s : State π) (t : ℕ) : barrier s t = groupBarrier s t (s.thread t).cache.grp :=
  rfl

/-- Whenever a functor runs on a worker, the cache is a copy of the task on top, and the calls
that ask for the current task refer to that task. -/
theorem current_task_innermost (hr : (system cfg).Reachable (Respawn cfg) s) {t : ℕ}
    (ht : t < cfg.numThreads) (hc : (s.thread t).ctl = .functor) :
    ∃ f rest, (s.thread t).frames = f :: rest ∧ (s.thread t).cache = (s.task f.task).toCopy ∧
      currentTaskGroupRank s t = (s.task f.task).grank ∧
      currentTaskGroupSize s t = (s.task f.task).gsize ∧
      barrier s t = groupBarrier s t (s.task f.task).grp := by
  have hth := callStack_reachable hr t (by omega)
  obtain ⟨f, rest, hf⟩ := List.exists_cons_of_ne_nil (hth.worker ht (by rw [hc]; rfl))
  have hcache : (s.thread t).cache = (s.task f.task).toCopy :=
    hth.cache f (by rw [hf]; rfl) (by simp [hc])
  refine ⟨f, rest, hf, hcache, ?_, ?_, ?_⟩
  · rw [currentTaskGroupRank, hcache]
  · rw [currentTaskGroupSize, hcache]
  · rw [barrier_eq, hcache]

/-- A member of group 0 waits for its child, which waits for a child of its own. -/
def nestedRun : List (Label ℕ) :=
  [⟨1, .spawn 0 (.new 0 false true) 0⟩] ++ ticks 1 1 ++ ticks 0 4 ++
    [⟨0, .spawn 1 { Attribute.new 0 true true with priority := 1 } 1⟩] ++ ticks 0 1 ++
    [⟨0, .wait 1⟩] ++ ticks 0 4 ++
    [⟨0, .spawn 2 { Attribute.new 0 true false with priority := 2 } 2⟩] ++ ticks 0 1 ++
    [⟨0, .wait 2⟩] ++ ticks 0 4

/-- Both children return, and the first functor goes on. -/
def unnestedRun : List (Label ℕ) :=
  nestedRun ++ [⟨0, .ret⟩] ++ ticks 0 8 ++ [⟨0, .ret⟩] ++ ticks 0 8

theorem current_task_innermost_unnestedRun :
    ∃ f rest, (((system (.small .prioS [1])).final unnestedRun).thread 0).frames = f :: rest ∧
      (((system (.small .prioS [1])).final unnestedRun).thread 0).cache =
        (((system (.small .prioS [1])).final unnestedRun).task f.task).toCopy ∧
      currentTaskGroupRank ((system (.small .prioS [1])).final unnestedRun) 0 =
        (((system (.small .prioS [1])).final unnestedRun).task f.task).grank ∧
      currentTaskGroupSize ((system (.small .prioS [1])).final unnestedRun) 0 =
        (((system (.small .prioS [1])).final unnestedRun).task f.task).gsize ∧
      barrier ((system (.small .prioS [1])).final unnestedRun) 0 =
        groupBarrier ((system (.small .prioS [1])).final unnestedRun) 0
          (((system (.small .prioS [1])).final unnestedRun).task f.task).grp :=
  current_task_innermost (System.reachable_final (by decide)) (by decide) (by decide)

/-! ### What the predicates imply along a stack -/

/-- What holds of the task below and the one above it for each adjacent pair. -/
def State.Stacked (cfg : Config π) (K : Copy π → Copy π → Prop) (s : State π) : Prop :=
  ∀ t ≤ cfg.numThreads, (s.thread t).stack.Pairwise fun x y =>
    K (s.task y).toCopy (s.task x).toCopy

/-- The relation holds between the suspended task and each one a predicate of its scheduling
point admits. -/
structure Admits (cfg : Config π) (K : Copy π → Copy π → Prop) : Prop where
  waiting : ∀ x y, cfg.policy.waitingPred cfg.comp x y → K x y
  group : ∀ x y, cfg.policy.groupPred cfg.comp x y → K x y
  trans : ∀ x y z, K x y → K y z → K x z

theorem Admits.of_predicate {K : Copy π → Copy π → Prop} (hK : Admits cfg K) {p : Point π}
    {current : Copy π} (hp : p.current? = some current) {own : Bool} {h : Handle}
    (hpred : (if own then (p.predicate cfg s).ownPred h else (p.predicate cfg s).stealPred h) =
      true) : K current (s.task h).toCopy := by
  cases p with
  | work => cases hp
  | wait c h' =>
    cases hp
    apply hK.waiting
    simpa [Point.predicate] using hpred
  | barrier c g myPhase =>
    cases hp
    apply hK.group
    simpa [Point.predicate] using hpred

/-- A task that a worker takes is above all that its stack holds. -/
theorem stacked_take {K : Copy π → Copy π → Prop} (hK : Admits cfg K) (hs : s.Stacked cfg K) {t : ℕ}
    (ht : t ≤ cfg.numThreads) (hth : (s.thread t).CallStack cfg (fun h => (s.task h).toCopy) t)
    {p : Point π} (hp : (s.thread t).ctl.point = some p) (hhand : (s.thread t).ctl.hand = none)
    {own : Bool} {h : Handle}
    (hpred : (if own then (p.predicate cfg s).ownPred h else (p.predicate cfg s).stealPred h) =
      true) : ∀ x ∈ (s.thread t).stack, K (s.task x).toCopy (s.task h).toCopy := by
  have hcurrent := hth.point p hp
  have hframes : (s.thread t).stack = (s.thread t).frames.map (·.task) := by
    simp [Thread.stack, hhand]
  intro x hx
  have hpair := hs t ht
  rw [hframes] at hx hpair
  cases hf : (s.thread t).frames with
  | nil =>
    rw [hf] at hx
    cases hx
  | cons f rest =>
    rw [hf] at hcurrent hx hpair
    have htop : K (s.task f.task).toCopy (s.task h).toCopy := hK.of_predicate hcurrent hpred
    rcases List.mem_cons.mp hx with rfl | hx
    · exact htop
    · exact hK.trans _ _ _ ((List.pairwise_cons.mp hpair).1 x hx) htop

theorem stacked_step {K : Copy π → Copy π → Prop} (hK : Admits cfg K) {l : Label π}
    (hr : (system cfg).Reachable (Respawn cfg) s) (hs : s.Stacked cfg K) (hd : Respawn cfg s l)
    (hstep : step cfg s l = some s') : s'.Stacked cfg K := by
  obtain ⟨hl, he⟩ := step_effect hstep
  have hflow := (flow_reachable hr).1
  cases hcand : candidate cfg s l with
  | none =>
    intro t ht
    exact pairwise_of_no_candidate (K := fun x y => K y x) hflow hd he hcand ht (hs t ht)
  | some r =>
    obtain ⟨p, h⟩ := r
    obtain ⟨i, -, top, rest, hp, hhand, hget, rfl⟩ := step_candidate hstep hcand
    intro t ht
    by_cases htl : t = l.thread
    · subst htl
      rw [take_stack hhand, List.pairwise_cons]
      refine ⟨?_, hs l.thread ht⟩
      exact stacked_take hK hs ht (callStack_reachable hr l.thread ht) hp hhand
        (testAndGet_eq_some hget).2.1
    · rw [he.other htl]
      exact hs t ht

/-- A transitive relation that the predicates imply orders every stack. -/
theorem stacked_reachable {K : Copy π → Copy π → Prop} (hK : Admits cfg K)
    (hr : (system cfg).Reachable (Respawn cfg) s) : s.Stacked cfg K := by
  refine hr.invariant' (I := State.Stacked cfg K) ?_ ?_
  · intro t ht
    by_cases hm : t = cfg.numThreads <;>
      simp [system, initial, Thread.stack, Ctl.hand, getTask, hm]
  · intro s l s' hr hs hd hstep
    exact stacked_step hK hr hs hd hstep

/-! ### Levels and priorities -/

theorem admits_levels (hp : cfg.policy = .cilkS) :
    Admits cfg fun x y => x.attr.level ≤ y.attr.level where
  waiting := by
    intro x y hxy
    simpa [Policy.waitingPred, hp] using hxy
  group := by
    intro x y hxy
    simp only [Policy.groupPred, hp, decide_eq_true_eq] at hxy
    exact hxy.1
  trans := fun _ _ _ => Nat.le_trans

theorem admits_priorities (hp : cfg.policy = .prioS)
    (hcomp : IsStrictWeakOrder π fun x y => cfg.comp x y) :
    Admits cfg fun x y => cfg.comp x.attr.priority y.attr.priority where
  waiting := by
    intro x y hxy
    simpa [Policy.waitingPred, hp] using hxy
  group := by
    intro x y hxy
    simp only [Policy.groupPred, hp, decide_eq_true_eq] at hxy
    exact hxy.1
  trans := fun _ _ _ => hcomp.trans _ _ _

/-- A chain of a strict weak order has at most one element in each class, so it is no longer
than a list of representatives. -/
theorem length_le_of_chain {comp : π → π → Bool} (hcomp : IsStrictWeakOrder π fun x y => comp x y)
    {xs ps : List π} (hxs : xs.Pairwise fun x y => comp x y)
    (hps : ∀ x ∈ xs, ∃ p ∈ ps, comp p x = false ∧ comp x p = false) : xs.length ≤ ps.length := by
  classical
  induction xs generalizing ps with
  | nil => exact Nat.zero_le _
  | cons x xs ih =>
    obtain ⟨hx, hxs⟩ := List.pairwise_cons.mp hxs
    obtain ⟨p, hp, hpx, hxp⟩ := hps x (by simp)
    -- the representative of `x` is that of no later element
    have hrest : ∀ y ∈ xs, ∃ q ∈ ps.erase p, comp q y = false ∧ comp y q = false := by
      intro y hy
      obtain ⟨q, hq, hqy, hyq⟩ := hps y (List.mem_cons_of_mem x hy)
      have hne : q ≠ p := by
        intro heq
        subst heq
        have hxy := (hcomp.incomp_trans x q y (by simp [hpx, hxp]) (by simp [hqy, hyq])).1
        exact hxy (hx y hy)
      exact ⟨q, (List.mem_erase_of_ne hne).mpr hq, hqy, hyq⟩
    have hle := ih hxs hrest
    rw [List.length_erase_of_mem hp] at hle
    have hpos := List.length_pos_of_mem hp
    rw [List.length_cons]
    omega

/-- From the bottom of a worker's stack to the top, levels do not fall under `cilkS` and
priorities rise under `prioS`, whose stacks are therefore no deeper than the number of
priorities that are not equivalent. -/
theorem stacks_ordered (hr : (system cfg).Reachable (Respawn cfg) s) {t : ℕ}
    (ht : t < cfg.numThreads) :
    (cfg.policy = .cilkS → (s.thread t).stack.reverse.Pairwise fun x y =>
      (s.task x).attr.level ≤ (s.task y).attr.level) ∧
    (cfg.policy = .prioS → IsStrictWeakOrder π (fun x y => cfg.comp x y) →
      ((s.thread t).stack.reverse.Pairwise fun x y =>
        cfg.comp (s.task x).attr.priority (s.task y).attr.priority) ∧
      ∀ ps : List π, (∀ h ∈ (s.thread t).stack, ∃ p ∈ ps,
          cfg.comp p (s.task h).attr.priority = false ∧
          cfg.comp (s.task h).attr.priority p = false) →
        (s.thread t).stack.length ≤ ps.length) := by
  constructor
  · intro hp
    exact List.pairwise_reverse.mpr (stacked_reachable (admits_levels hp) hr t (by omega))
  · intro hp hcomp
    have hpair := List.pairwise_reverse.mpr
      (stacked_reachable (admits_priorities hp hcomp) hr t (by omega))
    refine ⟨hpair, ?_⟩
    intro ps hps
    have hle : ((s.thread t).stack.reverse.map fun h => (s.task h).attr.priority).length ≤
        ps.length :=
      length_le_of_chain hcomp (List.pairwise_map.mpr hpair) (by simpa using hps)
    simpa using hle

/-- Three priorities are in use, and the stack is as deep as that allows. -/
theorem stacks_ordered_nestedRun :
    (((system (.small .prioS [1])).final nestedRun).thread 0).stack = [2, 1, 0] ∧
      ((((system (.small .prioS [1])).final nestedRun).thread 0).stack.reverse.Pairwise fun x y =>
        (Config.small .prioS [1]).comp
          (((system (.small .prioS [1])).final nestedRun).task x).attr.priority
          (((system (.small .prioS [1])).final nestedRun).task y).attr.priority) ∧
      (((system (.small .prioS [1])).final nestedRun).thread 0).stack.length ≤ [0, 1, 2].length :=
  have hr : (system (.small .prioS [1])).Reachable (Respawn (.small .prioS [1]))
      ((system (.small .prioS [1])).final nestedRun) := System.reachable_final (by decide)
  have h := (stacks_ordered hr (by decide : 0 < (Config.small .prioS [1]).numThreads)).2 rfl
    (lt_isStrictWeakOrder _ _)
  ⟨by decide, h.1, h.2 [0, 1, 2] (by decide)⟩

end PFunc.TaskManager
