import PFunc.ExactlyOnce
import PFunc.ForkJoinStacks

/-!
# Fork-join programs

A task spawns nested children on the queue of its worker and waits for those it has
spawned, all of them before it returns. In such a run the task manager refines the moves
of `ForkJoinStacks`.
-/

namespace PFunc.TaskManager

open LabelledRuns Atomics Event QueueSet Finset

variable {π : Type} {cfg : Config π} {s s' : State π}

/-- One call of a fork-join program. `root` says when the main program may spawn, and
`rel` relates the attribute of a task to those of its children. -/
def ForkJoin (cfg : Config π) (root : State π → Attribute π → Prop)
    (rel : Attribute π → Attribute π → Prop) (s : State π) (l : Label π) : Prop :=
  Respawn cfg s l ∧
  match l.act, (s.thread l.thread).frames with
  | .spawn h attr _, [] => h ∉ s.hist.unjoined ∧ root s attr
  | .spawn h attr _, f :: _ => h ∉ s.hist.unjoined ∧ attr.isNested ∧
      attr.queueNumber = queueCurrentThread ∧ rel (s.task f.task).attr attr
  | .wait h, f :: _ => h ∈ s.hist.unjoined ∧ s.hist.parent h = some f.task
  | .ret, f :: _ => ∀ h ∈ s.hist.unjoined, s.hist.parent h ≠ some f.task
  | .barrier, _ => False
  | _, _ => True

instance (cfg : Config π) (root : State π → Attribute π → Prop)
    (rel : Attribute π → Attribute π → Prop) [∀ s a, Decidable (root s a)] [DecidableRel rel]
    (s : State π) (l : Label π) : Decidable (ForkJoin cfg root rel s l) := by
  unfold ForkJoin
  rcases l.act with ⟨⟩ <;> rcases (s.thread l.thread).frames with ⟨⟩ <;> infer_instance

/-- The task in hand or just finished, which is above the frames of its thread. -/
def Ctl.hand : Ctl π → Option Handle
  | .took _ h _ => some h
  | .starting _ h => some h
  | .returned f => some f.task
  | _ => none

def Thread.stack (th : Thread π) : List Handle :=
  th.ctl.hand.toList ++ th.frames.map (·.task)

/-- The state seen as stacks and queues of tasks. -/
def State.toStacks (s : State π) : ForkJoinStacks.State ℕ ℕ Handle (Attribute π) where
  stack := fun t => (s.thread t).stack
  queue := fun q => {h | h ∈ s.queue q}
  parent := s.hist.parent
  value := fun h => (s.task h).attr
  born := s.hist.born
  began := s.hist.began
  clock := s.hist.clock

theorem Ctl.hand_of_token {c c' : Ctl π} (h : c'.token = c.token) : c'.hand = c.hand := by
  cases c <;> cases c' <;> simp_all [Ctl.token, Ctl.hand]

theorem Thread.held_eq (th : Thread π) (h : Handle) : th.held h = th.stack.count h := by
  cases hc : th.ctl <;>
    simp [Thread.held, Thread.count, Thread.stack, hc, Ctl.token, Ctl.hand, List.count_cons] <;>
    omega

/-- Threads and queues that do not exist stay as they were. -/
def State.Outside (cfg : Config π) (s : State π) : Prop :=
  (∀ t, cfg.numThreads < t → (s.thread t).stack = []) ∧ ∀ q, cfg.numQueues ≤ q → s.queue q = []

theorem outside_effect {l : Label π} (hl : l.thread ≤ cfg.numThreads) (hs : s.Outside cfg)
    (hq : s.QueuesExist cfg) (he : Effect cfg s l s') : s'.Outside cfg := by
  constructor
  · intro t ht
    rw [he.other (by omega)]
    exact hs.1 t ht
  · intro q hq'
    cases he with
    | leave h hc =>
      rw [leave_queue]
      exact hs.2 q hq'
    | put h q₀ hact hc =>
      have := hq _ h q₀ hc
      have hne : q ≠ q₀ := by omega
      exact (Function.update_of_ne hne _ _).trans (hs.2 q hq')
    | take p n k i top h rest hc hi =>
      have hne : q ≠ i := by omega
      exact (Function.update_of_ne hne _ _).trans (hs.2 q hq')
    | _ => exact hs.2 q hq'

theorem outside_reachable {D : State π → Label π → Prop} (hr : (system cfg).Reachable D s) :
    s.Outside cfg := by
  have hinitial : (initial cfg).Outside cfg := by
    refine ⟨?_, fun _ _ => rfl⟩
    intro t ht
    simp [initial, Thread.stack, Ctl.hand, getTask, Nat.ne_of_gt ht]
  refine hr.invariant' (I := fun s => s.Outside cfg) hinitial ?_
  · intro s l s' hr hs _ hstep
    obtain ⟨hl, he⟩ := step_effect hstep
    exact outside_effect hl hs (flow_reachable hr).2 he

theorem lt_numQueues_of_mem (hr : (system cfg).Reachable (Respawn cfg) s) {q : ℕ} {h : Handle}
    (hq : h ∈ s.queue q) : q < cfg.numQueues := by
  by_contra hge
  have hempty := (outside_reachable hr).2 q (by omega)
  exact absurd (hempty ▸ hq : h ∈ ([] : List Handle)) (by simp)

theorem lt_numThreads_of_mem (hr : (system cfg).Reachable (Respawn cfg) s) {t : ℕ} {h : Handle}
    (ht : h ∈ (s.thread t).stack) : t < cfg.numThreads := by
  by_contra hge
  rcases Nat.lt_or_eq_of_le (Nat.le_of_not_lt hge) with hgt | heq
  · rw [(outside_reachable hr).1 t hgt] at ht
    cases ht
  · subst heq
    have hheld := (callStack_reachable hr cfg.numThreads (by omega)).held_main h
    rw [Thread.held_eq] at hheld
    exact List.count_eq_zero.mp hheld ht

theorem active_iff (hr : (system cfg).Reachable (Respawn cfg) s) (h : Handle) :
    s.toStacks.Active h ↔ s.hist.entries h .complete < s.hist.entries h .queued := by
  have hmain := callStack_reachable hr cfg.numThreads (by omega)
  have hplaces := places_eq (flow_reachable hr).1 hmain h
  have hpos : s.toStacks.Active h ↔ 0 < s.places cfg h := by
    constructor
    · intro hactive
      rcases hactive with ⟨q, hq⟩ | ⟨t, ht⟩
      · have hlt := lt_numQueues_of_mem hr hq
        have hle := single_le_sum (f := fun q => (s.queue q).count h) (fun _ _ => Nat.zero_le _)
          (mem_range.mpr hlt)
        have hcount : 0 < (s.queue q).count h := List.count_pos_iff.mpr hq
        unfold State.places
        omega
      · have hheld : 0 < (s.thread t).held h := by
          rw [Thread.held_eq]
          exact List.count_pos_iff.mpr ht
        have hlt := lt_numThreads_of_mem hr ht
        have hle := single_le_sum (f := fun t => (s.thread t).held h) (fun _ _ => Nat.zero_le _)
          (mem_range.mpr hlt)
        unfold State.places
        omega
    · intro hplace
      by_contra hn
      have hq : ∀ q ∈ range cfg.numQueues, (s.queue q).count h = 0 := by
        intro q _
        exact List.count_eq_zero.mpr fun hm => hn (.inl ⟨q, hm⟩)
      have ht : ∀ t ∈ range cfg.numThreads, (s.thread t).held h = 0 := by
        intro t _
        rw [Thread.held_eq]
        exact List.count_eq_zero.mpr fun hm => hn (.inr ⟨t, hm⟩)
      rw [State.places, sum_eq_zero hq, sum_eq_zero ht] at hplace
      omega
  rw [hpos]
  omega

/-- What ties the children of a run to their parents. -/
structure State.Joined (cfg : Config π) (rel : Attribute π → Attribute π → Prop) (s : State π) :
    Prop where
  spawning : ∀ t ≤ cfg.numThreads, ∀ h q, (s.thread t).ctl = .spawning h q →
    h ∉ s.hist.unjoined ∧ ∀ f fs, (s.thread t).frames = f :: fs →
      q = cfg.queueNumber t ∧ rel (s.task f.task).attr (s.task h).attr
  /-- nobody waits for a task that is being spawned -/
  unawaited : ∀ t ≤ cfg.numThreads, ∀ h q, (s.thread t).ctl = .spawning h q →
    ∀ t' ≤ cfg.numThreads, ∀ p, (p, h) ∉ (s.thread t').waitPairs
  parent : ∀ t ≤ cfg.numThreads, ∀ p h, (p, h) ∈ (s.thread t).waitPairs →
    s.hist.parent h = some p
  unjoined : ∀ c p, s.toStacks.Active c → s.hist.parent c = some p → c ∈ s.hist.unjoined
  returned : ∀ t ≤ cfg.numThreads, ∀ f, (s.thread t).ctl = .returned f →
    ∀ c ∈ s.hist.unjoined, s.hist.parent c ≠ some f.task
  invariant : ForkJoinStacks.Invariant cfg.queueNumber rel s.toStacks

theorem stack_update (thread : ℕ → Thread π) (t : ℕ) (th : Thread π) :
    (fun i => (Function.update thread t th i).stack) =
      Function.update (fun i => (thread i).stack) t th.stack := by
  funext i
  by_cases hi : i = t
  · subst hi
    simp
  · simp [hi]

theorem toStacks_same {t : ℕ} {th : Thread π}
    (hthread : s'.thread = Function.update s.thread t th)
    (hstack : th.stack = (s.thread t).stack) (hqueue : s'.queue = s.queue)
    (hattr : ∀ h, (s'.task h).attr = (s.task h).attr) (hparent : s'.hist.parent = s.hist.parent)
    (hborn : s'.hist.born = s.hist.born) (hbegan : s'.hist.began = s.hist.began)
    (hclock : s'.hist.clock = s.hist.clock) : s'.toStacks = s.toStacks := by
  apply ForkJoinStacks.State.ext
  case stack =>
    simp only [State.toStacks, hthread, stack_update, hstack, Function.update_eq_self]
  case queue => simp only [State.toStacks, hqueue]
  case parent => exact hparent
  case value => exact funext hattr
  case born => exact hborn
  case began => exact hbegan
  case clock => exact hclock

theorem update_attr (task : Handle → Task π) (h : Handle) (x : Task π) :
    (fun i => (Function.update task h x i).attr) =
      Function.update (fun i => (task i).attr) h x.attr := by
  funext i
  by_cases hi : i = h
  · subst hi
    simp
  · simp [hi]

theorem update_attr_same (task : Handle → Task π) {h : Handle} {x : Task π}
    (hx : x.attr = (task h).attr) (i : Handle) :
    (Function.update task h x i).attr = (task i).attr := by
  have := congrFun (update_attr task h x) i
  rw [hx, Function.update_eq_self] at this
  exact this

theorem not_active_of_idle (hr : (system cfg).Reachable (Respawn cfg) s) {h : Handle}
    (he : s.hist.entries h .spawning = s.hist.entries h .complete) : ¬s.toStacks.Active h := by
  have hflow := (flow_reachable hr).1
  have := hflow h .spawning .queued rfl
  rw [active_iff hr]
  omega

/-- A task in `spawn_task` is neither queued nor on a stack. -/
theorem not_active_of_spawning (hr : (system cfg).Reachable (Respawn cfg) s) {t : ℕ}
    (ht : t ≤ cfg.numThreads) {h : Handle} {q : ℕ} (hc : (s.thread t).ctl = .spawning h q) :
    ¬s.toStacks.Active h := by
  have hflow := (flow_reachable hr).1
  have honce := (State.Events.reachable hr).once h
  have hspawning := hflow h .spawning .queued rfl
  have hpos : 0 < s.occupancy cfg h .spawning := by
    by_contra hz
    have hcount : (s.thread t).count h .spawning ≤ s.occupancy cfg h .spawning :=
      count_le_occupancy ht
    simp [Thread.count, hc, Ctl.token] at hcount
    omega
  rw [active_iff hr]
  omega

theorem not_mem_rest (hr : (system cfg).Reachable (Respawn cfg) s) {q top : ℕ} {own : Bool}
    {cnd : PredicatePair Handle} (hq : q < cfg.numQueues) {h : Handle} {rest : List Handle}
    (hget : testAndGet cfg.policy own top cnd (s.queue q) = some (h, rest)) : h ∉ rest := by
  have hactive : s.toStacks.Active h := .inl ⟨q, mem_of_testAndGet hget⟩
  have hplaced := places_eq_one hr ((active_iff hr h).mp hactive)
  have hle := single_le_sum (f := fun q => (s.queue q).count h) (fun _ _ => Nat.zero_le _)
    (mem_range.mpr hq)
  have hcount := count_testAndGet (x := h) hget
  simp only [State.places] at hplaced
  rw [if_pos rfl] at hcount
  exact List.count_eq_zero.mp (by omega)

variable {root : State π → Attribute π → Prop} {rel : Attribute π → Attribute π → Prop}

theorem put_move {l : Label π} (hr : (system cfg).Reachable (Respawn cfg) s)
    (hl : l.thread ≤ cfg.numThreads) (hj : s.Joined cfg rel) {h : Handle} {q : ℕ}
    (hc : (s.thread l.thread).ctl = .spawning h q) :
    ForkJoinStacks.Move cfg.queueNumber rel s.toStacks (s.put cfg l.thread h q).toStacks := by
  have hnew := not_active_of_spawning hr hl hc
  have hmove : ∀ p, (s.thread l.thread).frames.head?.map (·.task) = p →
      (s.put cfg l.thread h q).toStacks = s.toStacks.enqueue p q h := by
    intro p hp
    apply ForkJoinStacks.State.ext
    case stack =>
      simp only [State.toStacks, State.put, State.goto, State.setThread, stack_update,
        ForkJoinStacks.State.enqueue]
      rw [Function.update_eq_self_iff]
      simp [Thread.stack, hc, Ctl.hand]
    case queue =>
      funext q'
      ext x
      by_cases hq : q' = q
      · subst hq
        simp [State.toStacks, State.put, State.goto, State.setThread,
          ForkJoinStacks.State.enqueue]
      · simp [State.toStacks, State.put, State.goto, State.setThread,
          ForkJoinStacks.State.enqueue, hq]
    case parent =>
      subst hp
      rfl
    case value => rfl
    case born => rfl
    case began => rfl
    case clock => rfl
  cases hf : (s.thread l.thread).frames with
  | nil =>
    rw [hmove none (by simp [hf])]
    exact .external q h hnew
  | cons f fs =>
    obtain ⟨hq, hrel⟩ := (hj.spawning _ hl h q hc).2 f fs hf
    rw [hmove (some f.task) (by simp [hf]), hq]
    refine .spawn l.thread f.task (fs.map (·.task)) h ?_ hnew hrel
    simp [State.toStacks, Thread.stack, hc, Ctl.hand, hf]

theorem take_move {l : Label π} (hr : (system cfg).Reachable (Respawn cfg) s) {p : Point π}
    {n : Word} {k i top : ℕ} {h : Handle} {rest : List Handle}
    (hc : (s.thread l.thread).ctl = .seeking p n (.visit k)) (hi : i < cfg.numQueues)
    (hget : testAndGet cfg.policy (i == cfg.queueNumber l.thread) top (p.predicate cfg s)
      (s.queue i) = some (h, rest)) :
    (s.take l.thread p i h rest).toStacks = s.toStacks.take l.thread i h := by
  have hrest := not_mem_rest hr hi hget
  have hmem : ∀ x, x ∈ s.queue i ↔ x ∈ rest ∨ x = h := by
    intro x
    rw [← List.count_pos_iff, ← List.count_pos_iff, count_testAndGet hget]
    by_cases hx : h = x
    · simp [hx]
    · simp [hx, Ne.symm hx]
  apply ForkJoinStacks.State.ext
  case stack =>
    simp only [State.toStacks, State.take, State.goto, State.setThread, stack_update,
      ForkJoinStacks.State.take]
    congr 1
    have hhand : (found h p).hand = some h := by cases p <;> rfl
    simp only [Thread.stack, hc, hhand]
    rfl
  case queue =>
    funext q'
    ext x
    by_cases hq : q' = i
    · subst hq
      simp only [State.toStacks, State.take, State.goto, State.setThread,
        ForkJoinStacks.State.take, Function.update_self]
      change x ∈ rest ↔ x ∈ s.queue q' ∧ x ≠ h
      rw [hmem x]
      constructor
      · intro hx
        exact ⟨.inl hx, fun he => hrest (he ▸ hx)⟩
      · intro hx
        exact hx.1.resolve_right hx.2
    · simp [State.toStacks, State.take, State.goto, State.setThread,
        ForkJoinStacks.State.take, hq]
  case parent => rfl
  case value => rfl
  case born => rfl
  case began => rfl
  case clock => rfl

theorem notify_move {l : Label π} (hl : l.thread ≤ cfg.numThreads) (hj : s.Joined cfg rel) {f : Frame π}
    (hc : (s.thread l.thread).ctl = .returned f) :
    ForkJoinStacks.Move cfg.queueNumber rel s.toStacks (s.notify cfg l.thread f).toStacks := by
  have hmove : (s.notify cfg l.thread f).toStacks =
      s.toStacks.finish l.thread ((s.thread l.thread).frames.map (·.task)) := by
    apply ForkJoinStacks.State.ext
    case stack =>
      simp only [State.toStacks, State.notify, State.enter, State.setTask, State.setThread,
        stack_update, ForkJoinStacks.State.finish]
      congr 1
      have hhand : (resume cfg (s.thread l.thread).cache f.point).2.hand = none := by
        cases f.point <;> rfl
      simp [Thread.stack, hhand]
    case queue => rfl
    case parent => rfl
    case value =>
      funext x
      exact update_attr_same s.task (congrArg Copy.attr (Task.notify_toCopy _)) x
    case born => rfl
    case began => rfl
    case clock => rfl
  rw [hmove]
  refine .finish l.thread f.task _ ?_ ?_
  · simp [State.toStacks, Thread.stack, hc, Ctl.hand]
  · intro c hactive hparent
    exact hj.returned _ hl f hc c (hj.unjoined c f.task hactive hparent) hparent

/-- Each step of a fork-join run is a move of the stacks or leaves them alone. -/
theorem refines {l : Label π} (hr : (system cfg).Reachable (Respawn cfg) s)
    (hd : Respawn cfg s l) (hl : l.thread ≤ cfg.numThreads) (hj : s.Joined cfg rel)
    (he : Effect cfg s l s') : s'.toStacks = s.toStacks ∨
      ForkJoinStacks.Move cfg.queueNumber rel s.toStacks s'.toStacks := by
  cases he with
  | stay hact => exact .inl rfl
  | put h q hact hc => exact .inr (put_move hr hl hj hc)
  | take p n k i top h rest hc hi hact hk hik htop hget =>
    right
    rw [take_move hr hc hi hget]
    exact .take l.thread i h (mem_of_testAndGet hget)
  | notify f hc => exact .inr (notify_move hl hj hc)
  | spawn h attr g q hact hc =>
    right
    simp only [Respawn, hact] at hd
    have hmove : (s.spawn l.thread h attr g q).toStacks = s.toStacks.prepare h attr := by
      apply ForkJoinStacks.State.ext
      case stack =>
        simp only [State.toStacks, State.spawn, State.enter, State.goto, State.setThread,
          State.setGroup, State.setTask, stack_update, ForkJoinStacks.State.prepare]
        rw [Function.update_eq_self_iff]
        simp [Thread.stack, hc, Ctl.hand]
      case queue => rfl
      case parent => rfl
      case value =>
        simp only [State.toStacks, State.spawn, State.enter, State.goto, State.setThread,
          State.setGroup, State.setTask, update_attr, ForkJoinStacks.State.prepare,
          Task.spawn_attr]
      case born => rfl
      case began => rfl
      case clock => rfl
    rw [hmove]
    exact .prepare h attr (not_active_of_idle hr hd.1)
  | wait h c hact hc hn hcase =>
    left
    refine toStacks_same (t := l.thread) rfl ?_ rfl (fun _ => rfl) rfl rfl rfl rfl
    rcases hcase with ⟨-, rfl⟩ | ⟨-, rfl⟩ <;> simp [Thread.stack, hc, Ctl.hand, getTask]
  | arrive g x c hact hc hf hcase =>
    left
    refine toStacks_same (t := l.thread) rfl ?_ rfl (fun _ => rfl) rfl rfl rfl rfl
    rcases hcase with rfl | ⟨myPhase, rfl⟩ <;> simp [State.setGroup, Thread.stack, hc, Ctl.hand]
  | ret f rest hact hc hf =>
    left
    refine toStacks_same (t := l.thread) rfl ?_ rfl (fun _ => rfl) rfl rfl rfl rfl
    simp [Thread.stack, hc, Ctl.hand, hf]
  | goto c htoken =>
    left
    refine toStacks_same (t := l.thread) rfl ?_ rfl (fun _ => rfl) rfl rfl rfl rfl
    simp [Thread.stack, Ctl.hand_of_token htoken]
  | test h pc c hpc hwait htoken =>
    left
    refine toStacks_same (t := l.thread) rfl ?_ rfl ?_ rfl rfl rfl rfl
    · simp [State.test, State.setTask, Thread.stack, Ctl.hand_of_token htoken]
    · intro x
      simp only [State.goto, State.test, State.setTask, State.setThread]
      exact update_attr_same s.task (x := { s.task h with
        testingCompl := ((s.task h).testingCompl.test pc).1 }) rfl x
  | start p h hc =>
    left
    refine toStacks_same (t := l.thread) rfl ?_ rfl (fun _ => rfl) rfl rfl rfl rfl
    simp [Thread.stack, hc, Ctl.hand]
  | leave h hc =>
    left
    refine toStacks_same (t := l.thread) (leave_thread s _ h) ?_ (leave_queue s _ h) ?_ ?_ ?_ ?_ ?_
    · simp [Thread.stack, hc, Ctl.hand]
    all_goals simp

/-! ### What a step of a fork-join program keeps -/

section Joined

variable {l : Label π}

/-- Two threads do not spawn the same task at a time. -/
theorem spawning_unique (hr : (system cfg).Reachable (Respawn cfg) s)
    (hl : l.thread ≤ cfg.numThreads) {t : ℕ} (ht : t ≤ cfg.numThreads) (hne : t ≠ l.thread)
    {h h' : Handle} {q q' : ℕ} (hc : (s.thread t).ctl = .spawning h q)
    (hc' : (s.thread l.thread).ctl = .spawning h' q') : h ≠ h' := by
  intro hh
  subst hh
  have hflow := (flow_reachable hr).1
  have honce := (State.Events.reachable hr).once h
  have hstage := hflow h .spawning .queued rfl
  have hle := hflow.stages h
  have hsub : ({t, l.thread} : Finset ℕ) ⊆ range (cfg.numThreads + 1) := by
    intro x hx
    simp only [mem_insert, mem_singleton] at hx
    rw [mem_range]
    omega
  have hsum := sum_le_sum_of_subset (f := fun t => (s.thread t).count h .spawning) hsub
  have hone : (s.thread t).count h .spawning = 1 := by simp [Thread.count, hc, Ctl.token]
  have hone' : (s.thread l.thread).count h .spawning = 1 := by
    simp [Thread.count, hc', Ctl.token]
  have hocc : s.occupancy cfg h .spawning =
      ∑ t ∈ range (cfg.numThreads + 1), (s.thread t).count h .spawning := by
    simp [State.occupancy]
  rw [sum_pair hne, hone, hone'] at hsum
  omega

theorem mem_of_waits (hd : ForkJoin cfg root rel s l) {p h : Handle} (hact : l.act = .wait h)
    (hp : (s.thread l.thread).frames.head?.map (·.task) = some p) :
    h ∈ s.hist.unjoined ∧ s.hist.parent h = some p := by
  have hd' := hd.2
  cases hf : (s.thread l.thread).frames with
  | nil => simp [hf] at hp
  | cons f fs =>
    simp only [hact, hf] at hd'
    simp only [hf, List.head?_cons, Option.map_some, Option.some.injEq] at hp
    exact ⟨hd'.1, hp ▸ hd'.2⟩

theorem unjoined_subset (he : Effect cfg s l s') {h : Handle} (hh : h ∈ s'.hist.unjoined) :
    h ∈ s.hist.unjoined ∨
      ∃ q, (s.thread l.thread).ctl = .spawning h q ∧ s' = s.put cfg l.thread h q := by
  rcases he.hist_cases with ⟨-, hu⟩ | ⟨x, q, hc, rfl⟩ | ⟨x, hc, rfl⟩
  · exact .inl (hu ▸ hh)
  · simp only [State.put, State.goto, State.setThread, History.enter] at hh
    split at hh
    · rcases List.mem_cons.mp hh with rfl | hh
      · exact .inr ⟨q, hc, rfl⟩
      · exact .inl hh
    · exact .inl hh
  · rw [leave_hist] at hh
    dsimp only at hh
    split at hh
    · exact .inl hh
    · exact .inl (List.mem_of_mem_filter hh)

theorem parent_cases (he : Effect cfg s l s') (h : Handle) :
    s'.hist.parent h = s.hist.parent h ∨ ∃ q, (s.thread l.thread).ctl = .spawning h q ∧
      s' = s.put cfg l.thread h q := by
  rcases he.hist_cases with ⟨hp, -⟩ | ⟨x, q, hc, rfl⟩ | ⟨x, hc, rfl⟩
  · exact .inl (by rw [hp])
  · by_cases hx : h = x
    · subst hx
      exact .inr ⟨q, hc, rfl⟩
    · exact .inl (Function.update_of_ne hx _ _)
  · exact .inl (by simp)

/-- While a thread is in `spawn_task`, no other thread puts its task. -/
theorem spawning_kept (hr : (system cfg).Reachable (Respawn cfg) s) (hd : Respawn cfg s l)
    (hl : l.thread ≤ cfg.numThreads) (he : Effect cfg s l s') {t : ℕ} (ht : t ≤ cfg.numThreads)
    {h : Handle} {q : ℕ} (hc : (s'.thread t).ctl = .spawning h q) :
    ((s.thread t).ctl = .spawning h q ∧ s'.thread t = s.thread t ∧
      (h ∈ s'.hist.unjoined → h ∈ s.hist.unjoined)) ∨
    t = l.thread ∧ ∃ attr g, l.act = .spawn h attr g ∧ s' = s.spawn l.thread h attr g q ∧
      q = if queueCurrentThread = attr.queueNumber then cfg.queueNumber t
        else attr.queueNumber := by
  by_cases htl : t = l.thread
  · subst htl
    rcases he.ctl_spawning hc with rfl | ⟨attr, g, hact, hs', -, hq⟩
    · exact .inl ⟨hc, rfl, id⟩
    · exact .inr ⟨rfl, attr, g, hact, hs', hq⟩
  · rw [he.other htl] at hc
    refine .inl ⟨hc, he.other htl, ?_⟩
    intro hh
    rcases unjoined_subset he hh with hh | ⟨q', hc', -⟩
    · exact hh
    · exact absurd rfl (spawning_unique hr hl ht htl hc hc')

theorem joined_spawning (hr : (system cfg).Reachable (Respawn cfg) s)
    (hd : ForkJoin cfg root rel s l) (hl : l.thread ≤ cfg.numThreads) (hj : s.Joined cfg rel)
    (he : Effect cfg s l s') : ∀ t ≤ cfg.numThreads, ∀ h q, (s'.thread t).ctl = .spawning h q →
      h ∉ s'.hist.unjoined ∧ ∀ f fs, (s'.thread t).frames = f :: fs →
        q = cfg.queueNumber t ∧ rel (s'.task f.task).attr (s'.task h).attr := by
  have hflow := (flow_reachable hr).1
  intro t ht h q hc
  have hframe : ∀ f fs, (s.thread t).frames = f :: fs →
      (s'.task f.task).attr = (s.task f.task).attr := by
    intro f fs hf
    refine congrArg Copy.attr (copy_effect hflow hd.1 he ht .running (by simp) ?_)
    simp [Thread.count, hf]
  rcases spawning_kept hr hd.1 hl he ht hc with ⟨hold, hth, hu⟩ | ⟨rfl, attr, g, hact, hs', hq⟩
  · obtain ⟨hnot, hrel⟩ := hj.spawning t ht h q hold
    refine ⟨fun hh => hnot (hu hh), ?_⟩
    intro f fs hf
    rw [hth] at hf
    have hattr : (s'.task h).attr = (s.task h).attr :=
      congrArg Copy.attr (copy_effect hflow hd.1 he ht .spawning (by simp)
        (by simp [Thread.count, hold, Ctl.token]))
    rw [hframe f fs hf, hattr]
    exact hrel f fs hf
  · have hframes : (s'.thread l.thread).frames = (s.thread l.thread).frames := by
      rw [hs']
      simp [State.spawn, State.enter, State.goto, State.setThread, State.setGroup, State.setTask]
    have hunjoined : s'.hist.unjoined = s.hist.unjoined := by
      rw [hs']
      rfl
    have hself : (s'.task h).attr = attr := by
      rw [hs']
      simp [State.spawn, State.enter, State.goto, State.setThread, State.setGroup, State.setTask]
    have hd' := hd.2
    rw [hframes, hunjoined, hself]
    cases hf : (s.thread l.thread).frames with
    | nil =>
      simp only [hact, hf] at hd'
      exact ⟨hd'.1, fun f fs hn => by cases hn⟩
    | cons f fs =>
      simp only [hact, hf] at hd'
      obtain ⟨hnot, -, hdefault, hrel⟩ := hd'
      refine ⟨hnot, ?_⟩
      intro f' fs' heq
      cases heq
      rw [hframe f fs hf, hq, if_pos hdefault.symm]
      exact ⟨rfl, hrel⟩

theorem joined_unawaited (hr : (system cfg).Reachable (Respawn cfg) s)
    (hd : ForkJoin cfg root rel s l) (hl : l.thread ≤ cfg.numThreads) (hj : s.Joined cfg rel)
    (he : Effect cfg s l s') : ∀ t ≤ cfg.numThreads, ∀ h q, (s'.thread t).ctl = .spawning h q →
      ∀ t' ≤ cfg.numThreads, ∀ p, (p, h) ∉ (s'.thread t').waitPairs := by
  intro t ht h q hc t' ht' p hp
  rcases spawning_kept hr hd.1 hl he ht hc with ⟨hold, -, -⟩ | ⟨-, attr, g, hact, -, -⟩
  · rcases he.waitPairs hp with hp | ⟨rfl, hact, hp⟩
    · exact hj.unawaited t ht h q hold t' ht' p hp
    · exact (hj.spawning t ht h q hold).1 (mem_of_waits hd hact hp).1
  · rcases he.waitPairs hp with hp | ⟨-, hact', -⟩
    · have hd' := hd.1
      simp only [Respawn, hact] at hd'
      exact hd'.2 t' ht' (Thread.mem_awaited.mpr (awaited_of_waitPairs hp))
    · rw [hact] at hact'
      cases hact'

theorem joined_parent (hd : ForkJoin cfg root rel s l) (hl : l.thread ≤ cfg.numThreads)
    (hj : s.Joined cfg rel) (he : Effect cfg s l s') : ∀ t ≤ cfg.numThreads, ∀ p h,
      (p, h) ∈ (s'.thread t).waitPairs → s'.hist.parent h = some p := by
  intro t ht p h hp
  have hold : s.hist.parent h = some p ∧ ∀ q, (s.thread l.thread).ctl ≠ .spawning h q := by
    rcases he.waitPairs hp with hp | ⟨rfl, hact, hp⟩
    · exact ⟨hj.parent t ht p h hp, fun q hc => hj.unawaited _ hl h q hc t ht p hp⟩
    · obtain ⟨hmem, hparent⟩ := mem_of_waits hd hact hp
      exact ⟨hparent, fun q hc => (hj.spawning _ hl h q hc).1 hmem⟩
  rcases parent_cases he h with hp | ⟨q, hc, -⟩
  · rw [hp]
    exact hold.1
  · exact absurd hc (hold.2 q)

theorem joined_unjoined (hr : (system cfg).Reachable (Respawn cfg) s)
    (hr' : (system cfg).Reachable (Respawn cfg) s') (hl : l.thread ≤ cfg.numThreads)
    (hj : s.Joined cfg rel) (he : Effect cfg s l s') :
    ∀ c p, s'.toStacks.Active c → s'.hist.parent c = some p → c ∈ s'.hist.unjoined := by
  intro c p hactive hparent
  rcases parent_cases he c with hp | ⟨q, hc, rfl⟩
  swap
  · have hhead : (s.thread l.thread).frames.head?.map (·.task) = some p := by
      simpa [State.put, State.goto, State.setThread] using hparent
    simp [State.put, State.goto, State.setThread, hhead]
  rw [hp] at hparent
  have hold : s.toStacks.Active c ∨ ∃ q, s' = s.put cfg l.thread c q := by
    obtain ⟨hcomplete, hq | ⟨q, -, hput⟩⟩ := he.entries_cases c
    · rw [active_iff hr'] at hactive
      rw [active_iff hr]
      exact .inl (by omega)
    · exact .inr ⟨q, hput⟩
  rcases hold with hold | ⟨q, rfl⟩
  swap
  · have hhead : (s.thread l.thread).frames.head?.map (·.task) = some p := by
      rw [← hparent, ← hp]
      simp [State.put, State.goto, State.setThread]
    simp [State.put, State.goto, State.setThread, hhead]
  have hmem := hj.unjoined c p hold hparent
  rcases he.hist_cases with ⟨-, hu⟩ | ⟨x, q, hc, rfl⟩ | ⟨x, hc, rfl⟩
  · exact hu ▸ hmem
  · simp only [State.put, State.goto, State.setThread, History.enter]
    split
    · exact List.mem_cons_of_mem x hmem
    · exact hmem
  · rw [leave_hist]
    dsimp only
    split
    · exact hmem
    · have hne : c ≠ x := by
        intro hcx
        subst hcx
        have hseen : (s.thread l.thread).ctl.seen = some c := by
          rw [hc]
          rfl
        have hevents := State.Events.reachable hr
        have := runs_of_complete hr (hevents.isNested_of_seen hl hseen)
          (hevents.seen _ hl c hseen)
        exact not_active_of_idle hr this.symm hold
      simp [hmem, hne]

theorem joined_returned (hd : ForkJoin cfg root rel s l)
    (hj : s.Joined cfg rel) (he : Effect cfg s l s') : ∀ t ≤ cfg.numThreads, ∀ f,
      (s'.thread t).ctl = .returned f → ∀ c ∈ s'.hist.unjoined,
        s'.hist.parent c ≠ some f.task := by
  intro t ht f hctl c hc hparent
  have hcase : (∃ f', (s.thread t).ctl = .returned f' ∧ f'.task = f.task) ∨
      t = l.thread ∧ ∃ rest, l.act = .ret ∧ (s.thread t).frames = f :: rest ∧
        s' = s.ret l.thread f rest := by
    by_cases htl : t = l.thread
    · subst htl
      rcases he.ctl_returned hctl with hf | hret
      · exact .inl hf
      · exact .inr ⟨rfl, hret⟩
    · rw [he.other htl] at hctl
      exact .inl ⟨f, hctl, rfl⟩
  rcases hcase with ⟨f', hf', htask⟩ | ⟨rfl, rest, hact, hf, rfl⟩
  · rw [← htask] at hparent
    have hput : ∀ q, (s.thread l.thread).ctl = .spawning c q → s' ≠ s.put cfg l.thread c q := by
      intro q hspawn hs'
      subst hs'
      have hhead : (s.thread l.thread).frames.head?.map (·.task) = some f'.task := by
        simpa [State.put, State.goto, State.setThread] using hparent
      obtain ⟨g, hg, hgf⟩ := Option.map_eq_some_iff.mp hhead
      have hmem : f'.task ∈ (s.thread l.thread).stack := by
        rw [← hgf]
        exact List.mem_append_right _ (List.mem_map_of_mem (List.mem_of_head? hg))
      have hmem' : f'.task ∈ (s.thread t).stack := by
        simp [Thread.stack, hf', Ctl.hand]
      have htl : t = l.thread := hj.invariant.stack_unique f'.task t l.thread hmem' hmem
      rw [htl, hspawn] at hf'
      cases hf'
    rcases parent_cases he c with hp | ⟨q, hspawn, hs'⟩
    · rcases unjoined_subset he hc with hmem | ⟨q, hspawn, hs'⟩
      · exact hj.returned t ht f' hf' c hmem (hp ▸ hparent)
      · exact hput q hspawn hs'
    · exact hput q hspawn hs'
  · have hd' := hd.2
    simp only [hact, hf] at hd'
    exact hd' c hc hparent

theorem joined_effect (hr : (system cfg).Reachable (Respawn cfg) s)
    (hr' : (system cfg).Reachable (Respawn cfg) s') (hd : ForkJoin cfg root rel s l)
    (hl : l.thread ≤ cfg.numThreads) (hj : s.Joined cfg rel) (he : Effect cfg s l s') :
    s'.Joined cfg rel where
  spawning := joined_spawning hr hd hl hj he
  unawaited := joined_unawaited hr hd hl hj he
  parent := joined_parent hd hl hj he
  unjoined := joined_unjoined hr hr' hl hj he
  returned := joined_returned hd hj he
  invariant := by
    rcases refines hr hd.1 hl hj he with heq | hmove
    · rw [heq]
      exact hj.invariant
    · exact hj.invariant.move hmove

end Joined

theorem joined_initial : (initial cfg).Joined cfg rel := by
  have hctl : ∀ t, ((initial cfg).thread t).ctl = .functor ∨
      ((initial cfg).thread t).ctl = getTask cfg .work := by
    intro t
    by_cases ht : t = cfg.numThreads <;> simp [initial, ht]
  refine ⟨?_, ?_, ?_, ?_, ?_, .empty ?_ ?_⟩
  · intro t _ h q hc
    rcases hctl t with ht | ht <;> rw [ht] at hc <;> cases hc
  · intro t _ h q hc
    rcases hctl t with ht | ht <;> rw [ht] at hc <;> cases hc
  · intro t _ p h hp
    cases hp
  · intro c p _ hp
    cases hp
  · intro t _ f hc
    rcases hctl t with ht | ht <;> rw [ht] at hc <;> cases hc
  · intro q
    ext x
    exact iff_of_false (by simp [State.toStacks, initial]) (by simp)
  · intro t
    rcases hctl t with ht | ht <;> simp only [State.toStacks, Thread.stack, ht] <;> rfl

theorem respawn_of_forkJoin (hr : (system cfg).Reachable (ForkJoin cfg root rel) s) :
    (system cfg).Reachable (Respawn cfg) s :=
  hr.mono fun _ _ hd => hd.1

theorem joined_reachable (hr : (system cfg).Reachable (ForkJoin cfg root rel) s) :
    s.Joined cfg rel := by
  refine hr.invariant' (I := fun s => s.Joined cfg rel) joined_initial ?_
  intro s l s' hr hj hd hstep
  obtain ⟨hl, he⟩ := step_effect hstep
  have hr' := respawn_of_forkJoin hr
  exact joined_effect hr' (hr'.step hd.1 hstep) hd hl hj he

end PFunc.TaskManager
