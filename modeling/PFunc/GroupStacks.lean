import PFunc.ForkJoin

/-!
# Groups on a call stack

A task on a call stack cannot go on before the tasks above it end, so two members of a group
on one stack do not both come to a barrier. The predicate of the barrier point compares a
candidate with the innermost task alone, and the waiting predicate does not look at groups. So
it is up to the program that no member is queued while a call is open that would take it and
overlook another one.
-/

namespace PFunc.TaskManager

open LabelledRuns Atomics Event QueueSet

variable {π : Type} {cfg : Config π} {s s' : State π}

/-- Both tasks have joined one group. -/
def Copy.SameGroup (x y : Copy π) : Prop :=
  x.attr.joinGroup ∧ y.attr.joinGroup ∧ x.grp = y.grp

instance (x y : Copy π) : Decidable (Copy.SameGroup x y) := by
  unfold Copy.SameGroup
  infer_instance

/-- No worker has two members of a group on its stack. -/
def State.GroupsApart (cfg : Config π) (s : State π) : Prop :=
  ∀ t < cfg.numThreads, (s.thread t).stack.Pairwise fun x y =>
    ¬Copy.SameGroup (s.task x).toCopy (s.task y).toCopy

instance (cfg : Config π) (s : State π) : Decidable (s.GroupsApart cfg) := by
  unfold State.GroupsApart
  infer_instance

/-- The frames whose groups the predicate of a point does not compare with a candidate's. -/
def Point.uncompared : Point π → List (Frame π) → List (Frame π)
  | .barrier _ _ _, fs => fs.tail
  | _, fs => fs

/-- The task that the step takes from a queue, and the point at which it does. -/
def candidate (cfg : Config π) (s : State π) (l : Label π) : Option (Point π × Handle) :=
  match (s.thread l.thread).ctl, l.act with
  | .seeking p _ (.visit k), .tick top =>
    let queueNum := cfg.queueNumber l.thread
    let i := (queueNum + k) % cfg.numQueues
    if k < cfg.numQueues then
      (testAndGet cfg.policy (i == queueNum) top (p.predicate cfg s) (s.queue i)).map (p, ·.1)
    else none
  | _, _ => none

theorem step_candidate {l : Label π} (hstep : step cfg s l = some s') {p : Point π} {h : Handle}
    (hcand : candidate cfg s l = some (p, h)) :
    ∃ i < cfg.numQueues, ∃ top rest, (s.thread l.thread).ctl.point = some p ∧
      (s.thread l.thread).ctl.hand = none ∧
      testAndGet cfg.policy (i == cfg.queueNumber l.thread) top (p.predicate cfg s)
        (s.queue i) = some (h, rest) ∧ s' = s.take l.thread p i h rest := by
  unfold candidate at hcand
  split at hcand
  next p' n k top hc hact =>
    simp only [Option.ite_none_right_eq_some, Option.map_eq_some_iff] at hcand
    obtain ⟨hk, r, hget, heq⟩ := hcand
    cases heq
    simp only [step, hact, tick, hc, seek, hk, hget, if_true, Option.ite_none_right_eq_some,
      Option.some.injEq] at hstep
    obtain ⟨-, -, rfl⟩ := hstep
    exact ⟨_, Nat.mod_lt _ (by omega), top, r.2, by rw [hc]; rfl, by rw [hc]; rfl, hget, rfl⟩
  next => cases hcand

/-- A step that takes no task lengthens no stack. -/
theorem Effect.stack_suffix {l : Label π} (he : Effect cfg s l s')
    (hcand : candidate cfg s l = none) :
    (s'.thread l.thread).stack <:+ (s.thread l.thread).stack := by
  cases he with
  | stay => exact List.suffix_rfl
  | leave h hc => simp [Thread.stack, hc, Ctl.hand]
  | spawn h attr g q hact hc =>
    simp [State.spawn, State.enter, State.goto, State.setThread, Thread.stack, hc, Ctl.hand,
      State.setGroup, State.setTask]
  | wait h c hact hc hn hcase =>
    rcases hcase with ⟨-, rfl⟩ | ⟨-, rfl⟩ <;>
      simp [State.goto, State.setThread, Thread.stack, hc, Ctl.hand, getTask]
  | arrive g x c hact hc hf hcase =>
    rcases hcase with rfl | ⟨myPhase, rfl⟩ <;>
      simp [State.goto, State.setThread, State.setGroup, Thread.stack, hc, Ctl.hand]
  | ret f rest hact hc hf =>
    simp [State.ret, State.enter, State.setThread, Thread.stack, hc, Ctl.hand, hf]
  | put h q hact hc => simp [State.put, State.goto, State.setThread, Thread.stack, hc, Ctl.hand]
  | goto c htoken =>
    simp [State.goto, State.setThread, Thread.stack, Ctl.hand_of_token htoken]
  | test h pc c hpc hwait htoken =>
    simp [State.goto, State.test, State.setTask, State.setThread, Thread.stack,
      Ctl.hand_of_token htoken]
  | take p n k i top h rest hc hi hact hk hik htop hget =>
    subst hik
    simp [candidate, hc, hact, hk, hget] at hcand
  | start p h hc => simp [State.start, State.enter, State.setThread, Thread.stack, hc, Ctl.hand]
  | notify f hc =>
    have hhand : (resume cfg (s.thread l.thread).cache f.point).2.hand = none := by
      cases f.point <;> rfl
    simp [State.notify, State.enter, State.setThread, State.setTask, Thread.stack, hhand]

theorem Effect.stack_sublist {l : Label π} (he : Effect cfg s l s')
    (hcand : candidate cfg s l = none) :
    (s'.thread l.thread).stack.Sublist (s.thread l.thread).stack :=
  (he.stack_suffix hcand).sublist

/-- A spawn leaves the copies of the tasks on the stacks alone. -/
theorem toCopy_of_stack (hs : s.Flow cfg) {l : Label π} (hd : Respawn cfg s l)
    (he : Effect cfg s l s') {t : ℕ} (ht : t ≤ cfg.numThreads) {h : Handle}
    (hh : h ∈ (s.thread t).stack) : (s'.task h).toCopy = (s.task h).toCopy := by
  have hheld : (s.thread t).held h ≠ 0 := by
    rw [Thread.held_eq]
    exact (List.count_pos_iff.mpr hh).ne'
  have hcount : ∃ st : Stage, st ≠ .complete ∧ (s.thread t).count h st ≠ 0 := by
    unfold Thread.held at hheld
    by_contra hnone
    push Not at hnone
    rw [hnone .taken (by simp), hnone .running (by simp), hnone .returned (by simp)] at hheld
    omega
  obtain ⟨st, hst, hne⟩ := hcount
  exact copy_effect hs hd he ht _ hst hne

/-- What relates the tasks of a stack pairwise still does after a step that takes no task. -/
theorem pairwise_of_no_candidate (hs : s.Flow cfg) {l : Label π} (hd : Respawn cfg s l)
    (he : Effect cfg s l s') (hcand : candidate cfg s l = none) {K : Copy π → Copy π → Prop} {t : ℕ}
    (ht : t ≤ cfg.numThreads) (h : (s.thread t).stack.Pairwise fun x y =>
      K (s.task x).toCopy (s.task y).toCopy) :
    (s'.thread t).stack.Pairwise fun x y => K (s'.task x).toCopy (s'.task y).toCopy := by
  have hsub : (s'.thread t).stack.Sublist (s.thread t).stack := by
    by_cases htl : t = l.thread
    · subst htl
      exact he.stack_sublist hcand
    · rw [he.other htl]
  refine (h.imp_of_mem ?_).sublist hsub
  intro x y hx hy hxy
  rwa [toCopy_of_stack hs hd he ht hx, toCopy_of_stack hs hd he ht hy]

theorem take_stack {t : ℕ} (hhand : (s.thread t).ctl.hand = none) (p : Point π) (i : ℕ) (h : Handle)
    (rest : List Handle) : ((s.take t p i h rest).thread t).stack = h :: (s.thread t).stack := by
  have hfound : (found h p).hand = some h := by cases p <;> rfl
  simp [State.take, State.goto, State.setThread, Thread.stack, hfound, hhand]

/-- What is compared and what is not make up the frames. -/
theorem frame_cases {copy : Handle → Copy π} {t : ℕ} {th : Thread π}
    (hth : th.CallStack cfg copy t) {p : Point π} (hp : th.ctl.point = some p) {f : Frame π}
    (hf : f ∈ th.frames) : f ∈ p.uncompared th.frames ∨
      ∃ g myPhase, p = .barrier (copy f.task) g myPhase := by
  cases p with
  | barrier current g myPhase =>
    have hcurrent := hth.point _ hp
    obtain ⟨f', fs, hfs⟩ := List.exists_cons_of_ne_nil (List.ne_nil_of_mem hf)
    rw [hfs] at hf hcurrent
    simp only [Point.current?, List.head?_cons, Option.map_some, Option.some.injEq] at hcurrent
    rcases List.mem_cons.mp hf with rfl | hf
    · exact .inr ⟨g, myPhase, by rw [hcurrent]⟩
    · exact .inl (by simpa [Point.uncompared, hfs] using hf)
  | work => exact .inl hf
  | wait => exact .inl hf

/-- No two members of a group come together on a stack if the task taken is not above one of its
group that the predicate overlooks. -/
theorem groupsApart_step {l : Label π} (hr : (system cfg).Reachable (Respawn cfg) s)
    (hs : s.GroupsApart cfg) (hd : Respawn cfg s l) (hstep : step cfg s l = some s')
    (htakes : ∀ r ∈ candidate cfg s l, ∀ f ∈ r.1.uncompared (s.thread l.thread).frames,
      ¬Copy.SameGroup (s.task r.2).toCopy (s.task f.task).toCopy) : s'.GroupsApart cfg := by
  obtain ⟨hl, he⟩ := step_effect hstep
  have hflow := (flow_reachable hr).1
  intro t ht
  cases hcand : candidate cfg s l with
  | none =>
    exact pairwise_of_no_candidate (K := fun x y => ¬Copy.SameGroup x y) hflow hd he hcand
      (by omega) (hs t ht)
  | some r =>
    obtain ⟨p, h⟩ := r
    obtain ⟨i, -, top, rest, hpoint, hhand, hget, rfl⟩ := step_candidate hstep hcand
    by_cases htl : t = l.thread
    swap
    · rw [he.other htl]
      exact hs t ht
    subst htl
    have hth := callStack_reachable hr l.thread hl
    rw [take_stack hhand p i h rest, List.pairwise_cons]
    refine ⟨?_, hs l.thread ht⟩
    intro x hx
    obtain ⟨f, hf, rfl⟩ : ∃ f ∈ (s.thread l.thread).frames, f.task = x := by
      simpa [Thread.stack, hhand] using hx
    rcases frame_cases hth hpoint hf with hin | ⟨g, myPhase, rfl⟩
    · exact htakes (p, h) (by simp [hcand]) f hin
    · -- the barrier point has compared the groups of the two tasks
      have hpred := (testAndGet_eq_some hget).2.1
      simp only [Point.predicate, ite_self] at hpred
      intro hsame
      exact Policy.grp_ne_of_groupPred hpred hsame.2.2.symm

/-! ### Calls that have not returned -/

/-- What the predicate of a point says of a queued task. -/
def Point.admits (cfg : Config π) (p : Point π) (x : Copy π) : Bool :=
  match p with
  | .work => Policy.regularPred x
  | .wait current _ => cfg.policy.waitingPred cfg.comp current x
  | .barrier current _ _ => cfg.policy.groupPred cfg.comp current x

theorem Point.predicate_eq (p : Point π) (own : Bool) (h : Handle) :
    (if own then (p.predicate cfg s).ownPred h else (p.predicate cfg s).stealPred h) =
      p.admits cfg (s.task h).toCopy := by
  cases p <;> simp [Point.predicate, Point.admits]

/-- A point admits the task although one of its group is suspended there, where the predicate does
not look. -/
def State.Overlooks (cfg : Config π) (s : State π) (p : Point π) (fs : List (Frame π))
    (x : Copy π) : Prop :=
  p.admits cfg x ∧ ∃ f ∈ p.uncompared fs, Copy.SameGroup x (s.task f.task).toCopy

instance (cfg : Config π) (s : State π) (p : Point π) (fs : List (Frame π)) (x : Copy π) :
    Decidable (s.Overlooks cfg p fs x) := by
  unfold State.Overlooks
  infer_instance

/-- The scheduling point of the innermost call, from the call on. -/
def Thread.openPoint (th : Thread π) : Option (Point π) :=
  match th.ctl with
  | .spinning g myPhase => some (.barrier th.cache g myPhase)
  | c => c.point

/-- The points at which the tasks of the frames were taken, with the frames below. -/
def suspended : List (Frame π) → List (Point π × List (Frame π))
  | [] => []
  | f :: fs => (f.point, fs) :: suspended fs

/-- The scheduling points of all calls on the stack, each with the frames that it has suspended. -/
def Thread.openCalls (th : Thread π) : List (Point π × List (Frame π)) :=
  th.openPoint.toList.map (·, th.frames) ++ suspended th.frames

/-- The scheduling point to which a call leads. -/
def opened (s : State π) (l : Label π) : Option (Point π) :=
  let cache := (s.thread l.thread).cache
  match l.act with
  | .wait h => some (.wait cache h)
  | .barrier => cache.grp.bind fun g =>
    let x := s.group g
    if 1 < x.groupSize ∧ x.typeOfBarrier = .steal ∧ x.arrive.2 then
      some (.barrier cache g x.barrierPhase)
    else none
  | _ => none

/-- The task that the step puts in a queue. -/
def queuing (s : State π) (l : Label π) : Option Handle :=
  match (s.thread l.thread).ctl with
  | .spawning h _ => some h
  | _ => none

/-- What a program has to see to: it puts no member of a group in a queue while a call is open, on
some worker, that would overlook a suspended one, and makes no such call while one is queued. -/
structure KeepsApart (cfg : Config π) (s : State π) (l : Label π) : Prop where
  put : ∀ h ∈ queuing s l, ∀ t < cfg.numThreads, ∀ c ∈ (s.thread t).openCalls,
    ¬s.Overlooks cfg c.1 c.2 (s.task h).toCopy
  call : ∀ p ∈ opened s l, ∀ i < cfg.numQueues, ∀ h ∈ s.queue i,
    ¬s.Overlooks cfg p (s.thread l.thread).frames (s.task h).toCopy

instance (cfg : Config π) (s : State π) (l : Label π) : Decidable (KeepsApart cfg s l) :=
  decidable_of_iff (_ ∧ _) ⟨fun h => ⟨h.1, h.2⟩, fun h => ⟨h.put, h.call⟩⟩

/-- No call is open that would overlook a suspended member of a queued task's group. -/
def State.NoneOverlooked (cfg : Config π) (s : State π) : Prop :=
  ∀ t < cfg.numThreads, ∀ c ∈ (s.thread t).openCalls, ∀ i < cfg.numQueues, ∀ h ∈ s.queue i,
    ¬s.Overlooks cfg c.1 c.2 (s.task h).toCopy

/-! ### What a run keeps -/

theorem Thread.mem_openCalls {th : Thread π} {c : Point π × List (Frame π)} :
    c ∈ th.openCalls ↔
      (∃ p, th.openPoint = some p ∧ c = (p, th.frames)) ∨ c ∈ suspended th.frames := by
  simp [Thread.openCalls, eq_comm]

/-- A step that takes no task to a new frame and ends none. -/
theorem openCalls_goto {l : Label π} {th' : Thread π} (hf : th'.frames = (s.thread l.thread).frames)
    (hp : ∀ p, th'.openPoint = some p →
      (s.thread l.thread).openPoint = some p ∨ opened s l = some p)
    {c : Point π × List (Frame π)} (hc : c ∈ th'.openCalls) :
    c ∈ (s.thread l.thread).openCalls ∨
      ∃ p ∈ opened s l, c = (p, (s.thread l.thread).frames) := by
  rw [Thread.mem_openCalls, hf] at hc
  rcases hc with ⟨p, hopen, rfl⟩ | hc
  · rcases hp p hopen with hold | hnew
    · exact .inl (Thread.mem_openCalls.mpr (.inl ⟨p, hold, rfl⟩))
    · exact .inr ⟨p, hnew, rfl⟩
  · exact .inl (Thread.mem_openCalls.mpr (.inr hc))

theorem openPoint_of_point {th : Thread π} {p : Point π} (hp : th.ctl.point = some p) :
    th.openPoint = some p := by
  cases hc : th.ctl <;> simp_all [Thread.openPoint, Ctl.point]

/-- A worker that goes back to the loop of a barrier is still in the same call. -/
theorem openPoint_move {copy : Handle → Copy π} {t : ℕ} {th : Thread π}
    (hth : th.CallStack cfg copy t) {c : Ctl π} (hmove : PointMove th c)
    (htoken : c.token = th.ctl.token) {p : Point π}
    (hp : ({ th with ctl := c } : Thread π).openPoint = some p) : th.openPoint = some p := by
  cases hmove with
  | same hpoint hspin =>
    apply openPoint_of_point
    rw [← hpoint]
    cases c <;> first | exact hp | exact absurd rfl (hspin _ _)
  | left hnone q hq hw hspin =>
    cases c with
    | spinning g myPhase =>
      obtain ⟨current, rfl⟩ := hspin g myPhase rfl
      obtain ⟨f, fs, hf⟩ := List.exists_cons_of_ne_nil (hth.frames_ne_nil hq hw)
      have hcurrent := hth.point _ hq
      have hcache : th.cache = copy f.task := by
        refine hth.cache f (by rw [hf]; rfl) ?_
        intro f' hf'
        rw [hf'] at htoken
        cases htoken
      simp only [hf, Point.current?, List.head?_cons, Option.map_some, Option.some.injEq]
        at hcurrent
      rw [openPoint_of_point hq, hcurrent, ← hcache]
      exact hp
    | _ => simp_all [Thread.openPoint]
  | spin g myPhase hc hpoint =>
    rw [openPoint_of_point hpoint] at hp
    rw [← hp, Thread.openPoint, hc]

/-- A call opens a scheduling point, and otherwise none comes to be open. -/
theorem openCalls_step {l : Label π} (hr : (system cfg).Reachable (Respawn cfg) s)
    (hstep : step cfg s l = some s') {c : Point π × List (Frame π)}
    (hc : c ∈ (s'.thread l.thread).openCalls) : c ∈ (s.thread l.thread).openCalls ∨
      ∃ p ∈ opened s l, c = (p, (s.thread l.thread).frames) := by
  obtain ⟨hl, he⟩ := step_effect hstep
  have hth := callStack_reachable hr l.thread hl
  cases he with
  | stay => exact .inl hc
  | leave h => exact openCalls_goto (by simp) (by simp [Thread.openPoint, Ctl.point]) hc
  | spawn h attr g q =>
    refine openCalls_goto ?_ ?_ hc <;>
      simp [State.spawn, State.enter, State.goto, State.setThread, State.setGroup, State.setTask,
        Thread.openPoint, Ctl.point]
  | wait h ctl hact _ _ hcase =>
    refine openCalls_goto (by simp [State.goto, State.setThread]) ?_ hc
    intro p hp
    simp only [State.goto, State.setThread, Function.update_self] at hp
    rcases hcase with ⟨-, rfl⟩ | ⟨-, rfl⟩
    · cases hp
    · right
      simp only [opened, hact]
      exact hp
  | arrive g x ctl hact hfunctor hf hcase =>
    refine openCalls_goto (by simp [State.goto, State.setThread, State.setGroup]) ?_ hc
    intro p hp
    simp only [State.goto, State.setThread, Function.update_self] at hp
    rcases hcase with rfl | ⟨myPhase, rfl⟩
    · cases hp
    · right
      simp only [step, hact, hfunctor, call, hl, if_true, hf, ne_eq, not_false_eq_true, barrier]
        at hstep
      simp only [opened, hact]
      cases hgrp : (s.thread l.thread).cache.grp with
      | none => simp [hgrp] at hstep
      | some g' =>
        simp only [hgrp] at hstep
        split at hstep
        next hcase =>
          have hctl := congrArg (fun u : State π => (u.thread l.thread).ctl)
            (Option.some.inj hstep)
          simp only [State.goto, State.setThread, Function.update_self] at hctl
          split at hctl
          next harrive =>
            cases hctl
            rw [Option.bind_some, if_pos ⟨hcase.1, hcase.2, harrive⟩]
            exact hp
          next => cases hctl
        next =>
          have hctl := congrArg (fun u : State π => (u.thread l.thread).ctl)
            (Option.some.inj hstep)
          simp [State.goto, State.setThread, hfunctor] at hctl
  | ret f rest _ _ hf =>
    rw [Thread.mem_openCalls] at hc ⊢
    simp only [State.ret, State.enter, State.setThread, Function.update_self, Thread.openPoint,
      Ctl.point, Option.some.injEq] at hc
    left
    right
    rw [hf, suspended]
    rcases hc with ⟨p, rfl, rfl⟩ | hc
    · exact List.mem_cons_self
    · exact List.mem_cons_of_mem _ hc
  | put h q =>
    refine openCalls_goto ?_ ?_ hc <;>
      simp [State.put, State.goto, State.setThread, Thread.openPoint, Ctl.point]
  | goto ctl htoken _ _ _ hmove =>
    refine openCalls_goto (by simp [State.goto, State.setThread]) ?_ hc
    intro p hp
    simp only [State.goto, State.setThread, Function.update_self] at hp
    exact .inl (openPoint_move hth hmove htoken hp)
  | test h pc ctl _ _ htoken _ _ hmove =>
    refine openCalls_goto (by simp [State.goto, State.setThread, State.test, State.setTask]) ?_ hc
    intro p hp
    simp only [State.goto, State.setThread, State.test, State.setTask, Function.update_self] at hp
    exact .inl (openPoint_move hth hmove htoken hp)
  | take p n k i top h rest hctl =>
    refine openCalls_goto (by simp [State.take, State.goto, State.setThread]) ?_ hc
    intro q hq
    simp only [State.take, State.goto, State.setThread, Function.update_self] at hq
    left
    rw [openPoint_of_point (found_point h p)] at hq
    cases hq
    exact openPoint_of_point (by rw [hctl]; rfl)
  | start p h hctl =>
    rw [Thread.mem_openCalls] at hc
    simp only [State.start, State.enter, State.setThread, Function.update_self, Thread.openPoint,
      Ctl.point, suspended, List.mem_cons] at hc
    left
    rw [Thread.mem_openCalls]
    rcases hc with ⟨q, hq, -⟩ | rfl | hc
    · cases hq
    · exact .inl ⟨p, openPoint_of_point (by rw [hctl]; rfl), rfl⟩
    · exact .inr hc
  | notify f hctl =>
    refine openCalls_goto
      (by simp [State.notify, State.enter, State.setThread, State.setTask]) ?_ hc
    intro q hq
    left
    rw [openPoint_of_point (p := f.point) (by rw [hctl]; rfl), ← hq]
    simp only [State.notify, State.enter, State.setThread, State.setTask, Function.update_self]
    cases f.point <;> rfl

/-- A step leaves the copies of queued tasks alone. -/
theorem toCopy_of_queued {l : Label π} (hr : (system cfg).Reachable (Respawn cfg) s)
    (hd : Respawn cfg s l) (he : Effect cfg s l s') {i : ℕ} {h : Handle} (hq : h ∈ s.queue i) :
    (s'.task h).toCopy = (s.task h).toCopy := by
  apply he.toCopy
  intro attr g hact
  simp only [Respawn, hact] at hd
  exact not_active_of_idle hr hd.1 (.inl ⟨i, hq⟩)

/-- A task in a queue was there before, or the step is its put. -/
theorem queued_step {l : Label π} (he : Effect cfg s l s') {i : ℕ} {h : Handle}
    (hq : h ∈ s'.queue i) : h ∈ s.queue i ∨
      queuing s l = some h ∧ s'.task = s.task ∧
        ∀ t, (s'.thread t).openCalls = (s.thread t).openCalls := by
  cases he with
  | put h' q _ hc =>
    have hcalls : ∀ t, ((s.put cfg l.thread h' q).thread t).openCalls = (s.thread t).openCalls := by
      intro t
      by_cases ht : t = l.thread
      · subst ht
        simp [State.put, State.goto, State.setThread, Thread.openCalls, Thread.openPoint, Ctl.point,
          hc]
      · simp [State.put, State.goto, State.setThread, ht]
    by_cases hnew : h = h'
    · exact .inr ⟨by simp [queuing, hc, hnew], rfl, hcalls⟩
    · left
      by_cases hi : i = q
      · subst hi
        simpa [State.put, State.goto, State.setThread, hnew] using hq
      · simpa [State.put, State.goto, State.setThread, hi] using hq
  | take p n k j top h' rest _ _ _ _ _ _ hget =>
    left
    by_cases hi : i = j
    · subst hi
      exact (sublist_of_testAndGet hget).subset
        (by simpa [State.take, State.goto, State.setThread] using hq)
    · simpa [State.take, State.goto, State.setThread, hi] using hq
  | leave =>
    left
    rwa [leave_queue] at hq
  | _ => exact .inl hq

/-- The frames of an open call are on the stack. -/
theorem mem_frames_of_openCalls {th : Thread π} {c : Point π × List (Frame π)}
    (hc : c ∈ th.openCalls) {f : Frame π} (hf : f ∈ c.2) : f ∈ th.frames := by
  have hsuspended : ∀ fs : List (Frame π), c ∈ suspended fs → f ∈ fs := by
    intro fs
    induction fs with
    | nil => simp [suspended]
    | cons g gs ih =>
      intro h
      rcases List.mem_cons.mp h with rfl | h
      · exact List.mem_cons_of_mem g hf
      · exact List.mem_cons_of_mem g (ih h)
  rcases Thread.mem_openCalls.mp hc with ⟨p, -, rfl⟩ | hc
  · exact hf
  · exact hsuspended _ hc

theorem mem_of_uncompared {p : Point π} {fs : List (Frame π)} {f : Frame π}
    (hf : f ∈ p.uncompared fs) : f ∈ fs := by
  cases p with
  | barrier => exact List.mem_of_mem_tail hf
  | _ => exact hf

theorem State.Overlooks.congr {p : Point π} {fs : List (Frame π)} {x : Copy π}
    (h : s'.Overlooks cfg p fs x)
    (hcopy : ∀ f ∈ fs, (s'.task f.task).toCopy = (s.task f.task).toCopy) :
    s.Overlooks cfg p fs x := by
  obtain ⟨hadmits, f, hf, hsame⟩ := h
  exact ⟨hadmits, f, hf, hcopy f (mem_of_uncompared hf) ▸ hsame⟩

theorem noneOverlooked_step {l : Label π} (hr : (system cfg).Reachable (Respawn cfg) s)
    (hs : s.NoneOverlooked cfg) (hd : Respawn cfg s l) (hk : KeepsApart cfg s l)
    (hstep : step cfg s l = some s') : s'.NoneOverlooked cfg := by
  obtain ⟨hl, he⟩ := step_effect hstep
  have hflow := (flow_reachable hr).1
  intro t ht c hc i hi h hh hover
  have hcall : c ∈ (s.thread t).openCalls ∨
      t = l.thread ∧ ∃ p ∈ opened s l, c = (p, (s.thread l.thread).frames) := by
    by_cases htl : t = l.thread
    · subst htl
      exact (openCalls_step hr hstep hc).imp_right fun h => ⟨rfl, h⟩
    · rw [he.other htl] at hc
      exact .inl hc
  have hover : s.Overlooks cfg c.1 c.2 (s'.task h).toCopy := by
    refine hover.congr fun f hf => toCopy_of_stack hflow hd he ht.le ?_
    have hframe : f ∈ (s.thread t).frames := by
      rcases hcall with hold | ⟨rfl, p, -, rfl⟩
      · exact mem_frames_of_openCalls hold hf
      · exact hf
    exact List.mem_append_right _ (List.mem_map_of_mem (f := fun f : Frame π => f.task) hframe)
  rcases queued_step he hh with hold | ⟨hput, htask, hsame⟩
  · rw [toCopy_of_queued hr hd he hold] at hover
    rcases hcall with hcall | ⟨rfl, p, hp, rfl⟩
    · exact hs t ht c hcall i hi h hold hover
    · exact hk.call p hp i hi h hold hover
  · rw [htask] at hover
    exact hk.put h hput t ht c (hsame t ▸ hc) hover

/-- In a run in which the program keeps the members of a group from being queued under an open call
that would overlook them, no worker has two of them on its stack. -/
theorem groups_apart
    (hr : (system cfg).Reachable (fun s l => Respawn cfg s l ∧ KeepsApart cfg s l) s) :
    s.GroupsApart cfg := by
  have hboth : s.NoneOverlooked cfg ∧ s.GroupsApart cfg := by
    refine hr.invariant' (I := fun s => s.NoneOverlooked cfg ∧ s.GroupsApart cfg) ⟨?_, ?_⟩ ?_
    · intro t _ c _ i _ h hh
      cases hh
    · intro t ht
      simp [system, initial, Thread.stack, Ctl.hand, getTask, Nat.ne_of_lt ht]
    · rintro s l s' hr ⟨hnone, hapart⟩ ⟨hd, hk⟩ hstep
      have hr' := hr.mono fun _ _ h => h.1
      refine ⟨noneOverlooked_step hr' hnone hd hk hstep, groupsApart_step hr' hapart hd hstep ?_⟩
      rintro ⟨p, h⟩ hcand f hf hsame
      obtain ⟨i, hi, top, rest, hpoint, -, hget, -⟩ := step_candidate hstep hcand
      have hl := (step_effect hstep).1
      have hlt := (callStack_reachable hr' l.thread hl).lt_of_point hl hpoint
      have hopen : (p, (s.thread l.thread).frames) ∈ (s.thread l.thread).openCalls :=
        Thread.mem_openCalls.mpr (.inl ⟨p, openPoint_of_point hpoint, rfl⟩)
      refine hnone l.thread hlt _ hopen i hi h (mem_of_testAndGet hget) ⟨?_, f, hf, hsame⟩
      rw [← Point.predicate_eq]
      exact (testAndGet_eq_some hget).2.1
  exact hboth.2

/-- Both members of group 0 run, each on its worker; the first one waits for a child that it takes
itself, while the second one is inside its barrier. -/
def togetherRun : List (Label ℕ) :=
  [⟨2, .spawn 0 (.new 0 false true) 0⟩] ++ ticks 2 1 ++ ticks 0 4 ++
    [⟨2, .spawn 2 (.new 0 false true) 0⟩] ++ ticks 2 1 ++ ticks 1 5 ++
    [⟨1, .barrier⟩] ++ ticks 1 1 ++
    [⟨0, .spawn 1 { Attribute.new 0 true false with level := 1 } 1⟩] ++ ticks 0 1 ++
    [⟨0, .wait 1⟩] ++ ticks 0 4

theorem groups_apart_togetherRun :
    let s := (system (.small .cilkS [1, 1])).final togetherRun
    (s.thread 0).stack = [1, 0] ∧ (s.thread 1).stack = [2] ∧
      Copy.SameGroup (s.task 0).toCopy (s.task 2).toCopy ∧
      s.GroupsApart (.small .cilkS [1, 1]) :=
  ⟨by decide, by decide, by decide, groups_apart (System.reachable_final (by decide))⟩

/-- A member of group 0 waits for a child that the other worker runs, and takes the second
member meanwhile. -/
def memberRun : List (Label ℕ) :=
  [⟨2, .spawn 0 (.new 0 false true) 0⟩] ++ ticks 2 1 ++ ticks 0 4 ++
    [⟨0, .spawn 1 (.new 0 true false) 1⟩] ++ ticks 0 1 ++ ticks 1 5 ++
    [⟨2, .spawn 2 { Attribute.new 0 false true with priority := 1 } 0⟩] ++ ticks 2 1 ++
    [⟨0, .wait 1⟩] ++ ticks 0 4

/-- `memberRun` puts the second member above the first one. -/
def SuspendsMember (policy : Policy) : Prop :=
  (system (.small policy [1, 1])).Along (fun s l _ => Respawn (.small policy [1, 1]) s l)
      (initial (.small policy [1, 1])) memberRun ∧
    ¬((system (.small policy [1, 1])).final memberRun).GroupsApart (.small policy [1, 1])

theorem groups_not_apart_memberRun : SuspendsMember .cilkS ∧ SuspendsMember .lifoS ∧
    SuspendsMember .fifoS ∧ SuspendsMember .prioS :=
  ⟨⟨by decide, by decide⟩, ⟨by decide, by decide⟩, ⟨by decide, by decide⟩,
    ⟨by decide, by decide⟩⟩

end PFunc.TaskManager
