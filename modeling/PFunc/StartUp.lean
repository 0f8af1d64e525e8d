import PFunc.TaskManager
import PFunc.WindowsBarrier
import Mathlib.Data.List.GetD

/-!
# Start-up

The constructor of the task manager creates the workers queue by queue and spins until
`thread_start_count` has reached their number. A worker passes the start-up barrier, counts
itself and enters its work loop. On x86 the counter goes up by `lock xadd`; `win.h` has `xadd`
without the prefix, so that its load and its store are two accesses. The build is the one with
exceptions: a thread that cannot be created throws, the exception leaves the constructor, and the
members are destroyed, the barrier among them. What the workers do after that is not defined.
-/

namespace PFunc.StartUp

open LabelledRuns System Atomics Headcounts TaskManager
open CyclicBarrier (Visits)

/-- A barrier of `size` threads: its steps, whose they are, and the visits so far. -/
structure Barrier (size : Word) where
  State : Type
  Label : Type
  system : System State Label
  thread : Label → Fin size.toNat
  visits : State → Visits (Fin size.toNat)
  refines : system.Refines (fun _ _ => True) Visits.Step .initial visits
  others : ∀ s l s', system.step s l = some s' → ∀ q ≠ thread l,
    (visits s').entered q = (visits s).entered q ∧ (visits s').left q = (visits s).left q

/-- `thread_attr` -/
structure ThreadAttr where
  stackSize : ℕ
  threadId : ℕ
  threadAffinity : Word
  taskQueueNumber : ℕ
  deriving DecidableEq

def stackMax : ℕ := 4096 * 4096

def noAffinity : Word := ~~~0

inductive Xadd where
  | locked
  | unlocked
  deriving DecidableEq

/-- Where the constructor is. -/
inductive Main where
  /-- before the test of the inner loop, at queue `i` and thread `j` of it -/
  | creating (i j : ℕ)
  /-- a thread could not be created, and the exception leaves the constructor -/
  | failed
  /-- the exception has left, and the members are gone -/
  | destroyed
  | spinning
  | returned
  deriving DecidableEq

inductive Pc where
  /-- not created, or not past the barrier -/
  | starting
  /-- between the load and the store of an unlocked `xadd` -/
  | loaded (v : Word)
  /-- in the work loop -/
  | working
  deriving DecidableEq

variable {π : Type} {size : Word}

structure State (B : Barrier size) where
  main : Main
  /-- how many threads have been created -/
  index : ℕ
  threadData : ℕ → Option ThreadAttr
  startUpBarrier : B.State
  worker : Fin size.toNat → Pc
  threadStartCount : Word

inductive Label (B : Barrier size) where
  /-- the next step of the loops that create threads, and whether `create_thread` succeeds -/
  | create (success : Bool)
  /-- the members are destroyed -/
  | destroy
  /-- a worker in the start-up barrier -/
  | barrier (l : B.Label)
  | add (p : Fin size.toNat)
  | load (p : Fin size.toNat)
  | store (p : Fin size.toNat)
  /-- the constructor tests `thread_start_count` -/
  | test

variable (cfg : Config π) (affinity : Option (ℕ → ℕ → Word)) (xadd : Xadd) (B : Barrier size)

/-- The attributes of thread `j` of queue `i`. -/
def threadAttr (index i j : ℕ) : ThreadAttr where
  stackSize := stackMax
  threadId := index
  threadAffinity := match affinity with
    | none => noAffinity
    | some f => f i j
  taskQueueNumber := i

variable {B}

/-- The worker has been created and may enter the barrier, or is in it. -/
def State.arriving (s : State B) (p : Fin size.toNat) : Bool :=
  p.val < s.index && (B.visits s.startUpBarrier).left p = 0

/-- The worker has passed the barrier and has not been counted. -/
def State.passed (s : State B) (p : Fin size.toNat) : Bool :=
  s.worker p = .starting && 0 < (B.visits s.startUpBarrier).left p

def create (s : State B) (success : Bool) : Option (State B) :=
  match s.main with
  | .creating i j =>
    match cfg.threadsPerQueue[i]? with
    | some n =>
      if j < n then
        let attr := threadAttr affinity s.index i j
        let s' := { s with threadData := Function.update s.threadData s.index (some attr) }
        if success then some { s' with index := s.index + 1, main := .creating i (j + 1) }
        else some { s' with main := .failed }
      else some { s with main := .creating (i + 1) 0 }
    | none => some { s with main := .spinning }
  | _ => none

/-- A step while the members exist. -/
def move (s : State B) : Label B → Option (State B)
  | .create success => create cfg affinity s success
  | .destroy =>
    match s.main with
    | .failed => some { s with main := .destroyed }
    | _ => none
  | .barrier l =>
    if s.arriving (B.thread l) then
      (B.system.step s.startUpBarrier l).map fun b => { s with startUpBarrier := b }
    else none
  | .add p =>
    if xadd = .locked ∧ s.passed p then
      some { s with
        worker := Function.update s.worker p .working
        threadStartCount := (fetchAndAdd s.threadStartCount 1).1 }
    else none
  | .load p =>
    if xadd = .unlocked ∧ s.passed p then
      some { s with worker := Function.update s.worker p (.loaded s.threadStartCount) }
    else none
  | .store p =>
    match s.worker p with
    | .loaded v =>
      some { s with
        worker := Function.update s.worker p .working
        threadStartCount := (fetchAndAdd v 1).1 }
    | _ => none
  | .test =>
    match s.main with
    | .spinning => some { s with main := if s.threadStartCount = size then .returned else .spinning }
    | _ => none

def step (s : State B) (l : Label B) : Option (State B) :=
  if s.main = .destroyed then none else move cfg affinity xadd s l

variable (B) in
def system : System (State B) (Label B) where
  initial := ⟨.creating 0 0, 0, fun _ => none, B.system.initial, fun _ => .starting, 0⟩
  step := step cfg affinity xadd

/-- What each step does. -/
inductive Effect (s : State B) : Label B → State B → Prop
  | create {i j n : ℕ} (hmain : s.main = .creating i j) (hn : cfg.threadsPerQueue[i]? = some n)
      (hj : j < n) : Effect s (.create true) { s with
        threadData := Function.update s.threadData s.index (some (threadAttr affinity s.index i j))
        index := s.index + 1
        main := .creating i (j + 1) }
  | fail {i j n : ℕ} (hmain : s.main = .creating i j) (hn : cfg.threadsPerQueue[i]? = some n)
      (hj : j < n) : Effect s (.create false) { s with
        threadData := Function.update s.threadData s.index (some (threadAttr affinity s.index i j))
        main := .failed }
  | nextQueue {success : Bool} {i j n : ℕ} (hmain : s.main = .creating i j)
      (hn : cfg.threadsPerQueue[i]? = some n) (hj : n ≤ j) :
      Effect s (.create success) { s with main := .creating (i + 1) 0 }
  | created {success : Bool} {i j : ℕ} (hmain : s.main = .creating i j)
      (hn : cfg.threadsPerQueue[i]? = none) :
      Effect s (.create success) { s with main := .spinning }
  | destroy (hmain : s.main = .failed) : Effect s .destroy { s with main := .destroyed }
  | barrier (l : B.Label) (b : B.State) (harriving : s.arriving (B.thread l))
      (hb : B.system.step s.startUpBarrier l = some b) :
      Effect s (.barrier l) { s with startUpBarrier := b }
  | add (p : Fin size.toNat) (hxadd : xadd = .locked) (hp : s.passed p) :
      Effect s (.add p) { s with
        worker := Function.update s.worker p .working
        threadStartCount := s.threadStartCount + 1 }
  | load (p : Fin size.toNat) (hxadd : xadd = .unlocked) (hp : s.passed p) :
      Effect s (.load p)
        { s with worker := Function.update s.worker p (.loaded s.threadStartCount) }
  | store (p : Fin size.toNat) (v : Word) (hp : s.worker p = .loaded v) :
      Effect s (.store p) { s with
        worker := Function.update s.worker p .working
        threadStartCount := v + 1 }
  | full (hmain : s.main = .spinning) (hcount : s.threadStartCount = size) :
      Effect s .test { s with main := .returned }
  | spin (hmain : s.main = .spinning) (hcount : s.threadStartCount ≠ size) :
      Effect s .test { s with main := .spinning }

variable {cfg affinity xadd} {s s' t : State B} {l : Label B} {p : Fin size.toNat}

theorem move_effect (hs : move cfg affinity xadd s l = some s') :
    Effect cfg affinity xadd s l s' := by
  cases l with
  | create success =>
    simp only [move, create] at hs
    split at hs
    next i j hmain =>
      split at hs
      next n hn =>
        split at hs
        next hj =>
          cases success with
          | true =>
            cases hs
            exact .create hmain hn hj
          | false =>
            cases hs
            exact .fail hmain hn hj
        next hj =>
          cases hs
          exact .nextQueue hmain hn (Nat.le_of_not_lt hj)
      next hn =>
        cases hs
        exact .created hmain hn
    next => cases hs
  | destroy =>
    simp only [move] at hs
    split at hs
    next hmain =>
      cases hs
      exact .destroy hmain
    next => cases hs
  | barrier l =>
    simp only [move] at hs
    split at hs
    next harriving =>
      obtain ⟨b, hb, rfl⟩ := Option.map_eq_some_iff.mp hs
      exact .barrier l b harriving hb
    next => cases hs
  | add p =>
    simp only [move] at hs
    split at hs
    next hcase =>
      cases hs
      exact .add p hcase.1 hcase.2
    next => cases hs
  | load p =>
    simp only [move] at hs
    split at hs
    next hcase =>
      cases hs
      exact .load p hcase.1 hcase.2
    next => cases hs
  | store p =>
    simp only [move] at hs
    split at hs
    next v hp =>
      cases hs
      exact .store p v hp
    next => cases hs
  | test =>
    simp only [move] at hs
    split at hs
    next hmain =>
      cases hs
      split
      next hcount => exact .full hmain hcount
      next hcount => exact .spin hmain hcount
    next => cases hs

theorem step_effect (hs : step cfg affinity xadd s l = some s') :
    Effect cfg affinity xadd s l s' := by
  unfold step at hs
  split at hs
  · cases hs
  · exact move_effect hs

/-! ### The threads created -/

theorem getD_replicate (ns : List ℕ) (k i j d : ℕ) (hj : ∀ n ∈ ns[i]?, j < n)
    (hi : i < ns.length) :
    ((ns.zipIdx k).flatMap fun e => List.replicate e.1 e.2).getD ((ns.take i).sum + j) d = k + i := by
  induction ns generalizing k i with
  | nil => simp at hi
  | cons n ns ih =>
    rw [List.zipIdx_cons, List.flatMap_cons]
    cases i with
    | zero =>
      have hlt : j < n := hj n (by simp)
      rw [List.getD_append _ _ _ _ (by simpa using hlt)]
      simp [List.getD_eq_getElem?_getD, hlt]
    | succ i =>
      have hle : (List.replicate n k).length ≤ ((n :: ns).take (i + 1)).sum + j := by
        simp
        omega
      rw [List.getD_append_right _ _ _ _ hle]
      have hpos : ((n :: ns).take (i + 1)).sum + j - (List.replicate n k).length =
          (ns.take i).sum + j := by
        simp
        omega
      rw [hpos, ih (k + 1) i (by simpa using hj) (by simpa using hi)]
      omega

/-- The loops number the threads of queue `i` from the number of those of the queues before it. -/
theorem queueNumber_eq {i j n : ℕ} (hn : cfg.threadsPerQueue[i]? = some n) (hj : j < n) :
    cfg.queueNumber ((cfg.threadsPerQueue.take i).sum + j) = i := by
  have hi := (List.getElem?_eq_some_iff.mp hn).1
  have := getD_replicate cfg.threadsPerQueue 0 i j 0 (by simp [hn, hj]) hi
  simpa [Config.queueNumber] using this

theorem sum_take_succ {ns : List ℕ} {i n : ℕ} (hn : ns[i]? = some n) :
    (ns.take (i + 1)).sum = (ns.take i).sum + n := by
  obtain ⟨hi, rfl⟩ := List.getElem?_eq_some_iff.mp hn
  rw [List.take_add_one, List.sum_append]
  simp [hi]

theorem sum_take_le (ns : List ℕ) (i : ℕ) : (ns.take i).sum ≤ ns.sum := by
  conv_rhs => rw [← List.take_append_drop i ns, List.sum_append]
  omega

/-- The attributes that thread `t` is to have. -/
def attrOf (cfg : Config π) (affinity : Option (ℕ → ℕ → Word)) (t : ℕ) : ThreadAttr :=
  let i := cfg.queueNumber t
  threadAttr affinity t i (t - (cfg.threadsPerQueue.take i).sum)

/-- The threads below `index` are those of the loops' past. -/
structure State.Counted (cfg : Config π) (affinity : Option (ℕ → ℕ → Word)) (s : State B) :
    Prop where
  index_le : s.index ≤ cfg.numThreads
  creating : ∀ i j, s.main = .creating i j → s.index = (cfg.threadsPerQueue.take i).sum + j ∧
    (∀ n ∈ cfg.threadsPerQueue[i]?, j ≤ n) ∧ (cfg.threadsPerQueue[i]? = none → j = 0)
  created : s.main = .spinning ∨ s.main = .returned → s.index = cfg.numThreads
  failed : s.main = .failed ∨ s.main = .destroyed → s.index < cfg.numThreads
  data : ∀ t < s.index, s.threadData t = some (attrOf cfg affinity t)

theorem lt_numThreads {i j n : ℕ} (hn : cfg.threadsPerQueue[i]? = some n) (hj : j < n) :
    (cfg.threadsPerQueue.take i).sum + j < cfg.numThreads := by
  have := sum_take_succ hn
  have := sum_take_le cfg.threadsPerQueue (i + 1)
  unfold Config.numThreads
  omega

theorem State.Counted.step (h : s.Counted cfg affinity) (he : Effect cfg affinity xadd s l s') :
    s'.Counted cfg affinity := by
  cases he with
  | create hmain hn hj =>
    rename_i i j n
    obtain ⟨hindex, hle, -⟩ := h.creating _ _ hmain
    have hlt := lt_numThreads hn hj
    refine ⟨by simp only; omega, ?_, by simp, by simp, ?_⟩
    · rintro i' j' hmain'
      cases hmain'
      exact ⟨by simp only; omega, by simp only [hn, Option.mem_some_iff]; omega, by simp [hn]⟩
    · intro t ht
      simp only at ht
      by_cases hti : t = s.index
      · subst hti
        have hqueue := queueNumber_eq hn hj
        rw [← hindex] at hqueue
        simp only [Function.update_self, attrOf, hqueue]
        rw [show s.index - (cfg.threadsPerQueue.take i).sum = j by omega]
      · simpa [Function.update_of_ne hti] using h.data t (by omega)
  | fail hmain hn hj =>
    obtain ⟨hindex, -, -⟩ := h.creating _ _ hmain
    have hlt := lt_numThreads hn hj
    refine ⟨h.index_le, by simp, by simp, fun _ => by simp only; omega, ?_⟩
    intro t ht
    simp only at ht
    simpa [Function.update_of_ne ht.ne] using h.data t ht
  | nextQueue hmain hn hj =>
    rename_i i j n
    obtain ⟨hindex, hle, -⟩ := h.creating _ _ hmain
    have hjn := hle n (by simp [hn])
    refine ⟨h.index_le, ?_, by simp, by simp, h.data⟩
    rintro i' j' hmain'
    cases hmain'
    exact ⟨by simp only [sum_take_succ hn]; omega, fun _ _ => Nat.zero_le _, fun _ => rfl⟩
  | created hmain hn =>
    rename_i i j
    obtain ⟨hindex, -, hzero⟩ := h.creating _ _ hmain
    refine ⟨h.index_le, by simp, fun _ => ?_, by simp, h.data⟩
    have hlen : cfg.threadsPerQueue.length ≤ i := List.getElem?_eq_none_iff.mp hn
    simp only [hindex, hzero hn, List.take_of_length_le hlen]
    rfl
  | full hmain =>
    exact ⟨h.index_le, by simp, fun _ => h.created (.inl hmain), by simp, h.data⟩
  | destroy hmain =>
    exact ⟨h.index_le, by simp, by simp, fun _ => h.failed (.inl hmain), h.data⟩
  | spin hmain =>
    exact ⟨h.index_le, by simp, fun _ => h.created (.inl hmain), by simp, h.data⟩
  | _ => exact ⟨h.index_le, h.creating, h.created, h.failed, h.data⟩

theorem counted_reachable (hr : (system cfg affinity xadd B).Reachable (fun _ _ => True) s) :
    s.Counted cfg affinity := by
  refine hr.invariant (I := fun s => s.Counted cfg affinity) ?_ fun s l s' h _ hs =>
    h.step (step_effect hs)
  refine ⟨Nat.zero_le _, ?_, by simp [system], by simp [system],
    fun t ht => absurd ht (Nat.not_lt_zero t)⟩
  rintro i j hmain
  cases hmain
  simp [system]

/-! ### Past the barrier -/

/-- Only threads that have been created enter the barrier, and they are counted when they have
left it. -/
structure State.Sound (s : State B) : Prop where
  reachable : B.system.Reachable (fun _ _ => True) s.startUpBarrier
  entered : ∀ p : Fin size.toNat, 0 < (B.visits s.startUpBarrier).entered p → p.val < s.index
  left : ∀ p, s.worker p ≠ .starting → 0 < (B.visits s.startUpBarrier).left p

theorem left_le_entered {b : B.State} (hr : B.system.Reachable (fun _ _ => True) b)
    (p q : Fin size.toNat) : (B.visits b).left p ≤ (B.visits b).entered q := by
  refine B.refines.invariant (J := fun v : Visits (Fin size.toNat) => ∀ p q, v.left p ≤ v.entered q)
    (fun _ _ => le_rfl) ?_ hr p q
  intro v v' h hmove p q
  cases hmove with
  | enter r =>
    have := h p q
    by_cases hq : q = r
    · subst hq
      simp [Visits.enter]
      omega
    · simpa [Visits.enter, hq] using this
  | leave r hr =>
    by_cases hp : p = r
    · subst hp
      have := hr q
      simp [Visits.leave]
      omega
    · simpa [Visits.leave, hp] using h p q

theorem State.Sound.pass (h : s.Sound) (hp : s.passed p) (c : Pc) (count : Word) :
    State.Sound { s with
      worker := Function.update s.worker p c
      threadStartCount := count } where
  reachable := h.reachable
  entered := h.entered
  left := by
    intro q hq
    by_cases hqp : q = p
    · subst hqp
      exact (by simpa [State.passed] using hp : _ ∧ _).2
    · exact h.left q (by simpa [Function.update_of_ne hqp] using hq)

theorem State.Sound.step (h : s.Sound) (he : Effect cfg affinity xadd s l s') : s'.Sound := by
  cases he with
  | create =>
    refine ⟨h.reachable, fun p hp => ?_, h.left⟩
    have := h.entered p hp
    simp only
    omega
  | barrier l b harriving hb =>
    obtain ⟨hlt, hzero⟩ := (by simpa [State.arriving] using harriving : _ ∧ _)
    refine ⟨h.reachable.step trivial hb, ?_, ?_⟩
    · intro q hq
      by_cases hql : q = B.thread l
      · exact hql ▸ hlt
      · rw [(B.others _ _ _ hb q hql).1] at hq
        exact h.entered q hq
    · intro q hq
      have hold := h.left q hq
      have hql : q ≠ B.thread l := by
        rintro rfl
        omega
      rw [(B.others _ _ _ hb q hql).2]
      exact hold
  | add p hxadd hp => exact h.pass hp _ _
  | load p hxadd hp => exact h.pass hp _ _
  | store p v hp =>
    refine ⟨h.reachable, h.entered, fun q hq => ?_⟩
    by_cases hqp : q = p
    · subst hqp
      exact h.left q (by simp [hp])
    · exact h.left q (by simpa [Function.update_of_ne hqp] using hq)
  | _ => exact ⟨h.reachable, h.entered, h.left⟩

theorem sound_reachable (hr : (system cfg affinity xadd B).Reachable (fun _ _ => True) s) :
    s.Sound := by
  refine hr.invariant (I := State.Sound) ?_ fun s l s' h _ hs => h.step (step_effect hs)
  refine ⟨.initial, fun p hp => ?_, fun p hp => absurd rfl hp⟩
  simp [system, B.refines.initial, Visits.initial] at hp

/-! ### The counter -/

def Pc.isWorking : Pc → Bool
  | .working => true
  | _ => false

/-- How many threads have counted themselves. -/
def State.started (s : State B) : ℕ := headcount Pc.isWorking s.worker

/-- No count has been lost. -/
structure State.Exact (s : State B) : Prop where
  count : s.threadStartCount.toNat = s.started
  loaded : ∀ p v, s.worker p = .loaded v → v.toNat ≤ s.started

/-- A count has been lost, and with it the last value of the counter. -/
structure State.Short (s : State B) : Prop where
  count : s.threadStartCount.toNat < s.started
  loaded : ∀ p v, s.worker p = .loaded v → v.toNat < s.started

/-- If a thread stores, nobody has stored since it loaded. -/
def Undisturbed (s : State B) : Label B → Prop
  | .store p => s.worker p = .loaded s.threadStartCount
  | _ => True

instance (s : State B) : (l : Label B) → Decidable (Undisturbed s l)
  | .store p => inferInstanceAs (Decidable (s.worker p = .loaded s.threadStartCount))
  | .create _ => .isTrue trivial
  | .destroy => .isTrue trivial
  | .barrier _ => .isTrue trivial
  | .add _ => .isTrue trivial
  | .load _ => .isTrue trivial
  | .test => .isTrue trivial

/-- The next thread to be counted. -/
theorem headcount_work {worker : Fin size.toNat → Pc} (hp : (worker p).isWorking = false) :
    headcount Pc.isWorking (Function.update worker p .working) =
      headcount Pc.isWorking worker + 1 ∧
    headcount Pc.isWorking worker + 1 ≤ size.toNat := by
  have hupdate := headcount_update Pc.isWorking worker p .working
  have hlt := headcount_lt_card hp
  rw [Fintype.card_fin] at hlt
  rw [hp] at hupdate
  simp only [Pc.isWorking, Bool.toNat_false, Bool.toNat_true] at hupdate
  omega

theorem loaded_of_update {worker : Fin size.toNat → Pc} {c : Pc} {q : Fin size.toNat} {v : Word}
    (h : Function.update worker p c q = .loaded v) : c = .loaded v ∨ worker q = .loaded v := by
  by_cases hq : q = p
  · subst hq
    exact .inl (by simpa using h)
  · exact .inr (by simpa [Function.update_of_ne hq] using h)

theorem toNat_add_one (size : Word) {v : Word} (h : v.toNat + 1 ≤ size.toNat) : (v + 1).toNat = v.toNat + 1 := by
  have := size.isLt
  bv_omega

/-- The thread stores `v + 1` and is counted. -/
def State.countUp (s : State B) (p : Fin size.toNat) (v : Word) : State B :=
  { s with worker := Function.update s.worker p .working, threadStartCount := v + 1 }

theorem State.Exact.countUp (h : s.Exact) (hp : (s.worker p).isWorking = false) :
    (s.countUp p s.threadStartCount).Exact := by
  obtain ⟨hwork, hle⟩ := headcount_work hp
  have hcount : s.threadStartCount.toNat = headcount Pc.isWorking s.worker := h.count
  refine ⟨?_, fun q v hq => ?_⟩
  · simp only [State.started, State.countUp, hwork]
    rw [toNat_add_one size (by omega), hcount]
  · rcases loaded_of_update hq with hc | hq
    · cases hc
    · have hle : v.toNat ≤ headcount Pc.isWorking s.worker := h.loaded q v hq
      simp only [State.started, State.countUp, hwork]
      omega

/-- A thread that stores after another one has, loses that one's count. -/
theorem State.Exact.short (h : s.Exact) {v : Word} (hp : s.worker p = .loaded v)
    (hv : v ≠ s.threadStartCount) : (s.countUp p v).Short := by
  have hidle : (s.worker p).isWorking = false := by simp [hp, Pc.isWorking]
  obtain ⟨hwork, hle⟩ := headcount_work hidle
  have hcount : s.threadStartCount.toNat = headcount Pc.isWorking s.worker := h.count
  have hloaded : v.toNat ≤ headcount Pc.isWorking s.worker := h.loaded p v hp
  have hne : v.toNat ≠ s.threadStartCount.toNat := fun heq => hv (BitVec.eq_of_toNat_eq heq)
  refine ⟨?_, fun q v' hq => ?_⟩
  · simp only [State.started, State.countUp, hwork]
    rw [toNat_add_one size (by omega)]
    omega
  · rcases loaded_of_update hq with hc | hq
    · cases hc
    · have : v'.toNat ≤ headcount Pc.isWorking s.worker := h.loaded q v' hq
      simp only [State.started, State.countUp, hwork]
      omega

theorem State.Short.countUp (h : s.Short) (hp : (s.worker p).isWorking = false) {v : Word}
    (hv : v.toNat < s.started) : (s.countUp p v).Short := by
  obtain ⟨hwork, hle⟩ := headcount_work hp
  have hv : v.toNat < headcount Pc.isWorking s.worker := hv
  refine ⟨?_, fun q v' hq => ?_⟩
  · simp only [State.started, State.countUp, hwork]
    rw [toNat_add_one size (by omega)]
    omega
  · rcases loaded_of_update hq with hc | hq
    · cases hc
    · have : v'.toNat < headcount Pc.isWorking s.worker := h.loaded q v' hq
      simp only [State.started, State.countUp, hwork]
      omega

theorem starting_of_passed (hp : s.passed p) : s.worker p = .starting :=
  (by simpa [State.passed] using hp : _ ∧ _).1

theorem started_load (hp : s.passed p) (v : Word) :
    headcount Pc.isWorking (Function.update s.worker p (.loaded v)) = s.started :=
  headcount_update_same (by simp [starting_of_passed hp, Pc.isWorking])

theorem State.Exact.step (h : s.Exact) (hl : Undisturbed s l)
    (he : Effect cfg affinity xadd s l s') : s'.Exact := by
  cases he with
  | add p hxadd hp => exact h.countUp (by simp [starting_of_passed hp, Pc.isWorking])
  | load p hxadd hp =>
    refine ⟨h.count.trans (started_load hp _).symm, fun q v hq => ?_⟩
    simp only [State.started, started_load hp]
    rcases loaded_of_update hq with hc | hq
    · cases hc
      exact h.count.le
    · exact h.loaded q v hq
  | store p v hp =>
    have hl : s.worker p = .loaded s.threadStartCount := hl
    rw [hp] at hl
    cases hl
    exact h.countUp (by simp [hp, Pc.isWorking])
  | _ => exact ⟨h.count, h.loaded⟩

theorem State.Exact.disturb (h : s.Exact) (hl : ¬Undisturbed s l)
    (he : Effect cfg affinity xadd s l s') : s'.Short := by
  cases he with
  | store p v hp =>
    refine h.short hp ?_
    rintro rfl
    exact hl hp
  | _ => exact absurd trivial hl

theorem State.Short.step (h : s.Short) (he : Effect cfg affinity xadd s l s') : s'.Short := by
  cases he with
  | add p hxadd hp => exact h.countUp (by simp [starting_of_passed hp, Pc.isWorking]) h.count
  | load p hxadd hp =>
    refine ⟨h.count.trans_eq (started_load hp _).symm, fun q v hq => ?_⟩
    simp only [State.started, started_load hp]
    rcases loaded_of_update hq with hc | hq
    · cases hc
      exact h.count
    · exact h.loaded q v hq
  | store p v hp => exact h.countUp (by simp [hp, Pc.isWorking]) (h.loaded p v hp)
  | _ => exact ⟨h.count, h.loaded⟩

theorem exact_initial : (system cfg affinity xadd B).initial.Exact := by
  refine ⟨?_, fun p v hp => by cases hp⟩
  symm
  exact headcount_eq_zero.mpr fun _ => rfl

theorem exact_or_short (hr : (system cfg affinity xadd B).Reachable (fun _ _ => True) s) :
    s.Exact ∨ s.Short := by
  refine hr.invariant (I := fun s => s.Exact ∨ s.Short) (.inl exact_initial) ?_
  intro s l s' h _ hs
  rcases h with h | h
  · by_cases hl : Undisturbed s l
    · exact .inl (h.step hl (step_effect hs))
    · exact .inr (h.disturb hl (step_effect hs))
  · exact .inr (h.step (step_effect hs))

/-- The counter is full only when everybody is at work. -/
theorem working_of_full (h : s.Exact ∨ s.Short) (hcount : s.threadStartCount = size)
    (p : Fin size.toNat) : s.worker p = .working := by
  by_contra hp
  have hidle : (s.worker p).isWorking = false := by
    cases hc : s.worker p <;> simp [hc] at hp <;> rfl
  have hlt := headcount_lt_card hidle
  rw [Fintype.card_fin] at hlt
  have hle : s.threadStartCount.toNat ≤ headcount Pc.isWorking s.worker :=
    h.elim (fun h => h.count.le) fun h => h.count.le
  rw [hcount] at hle
  omega

/-- Who works stays at work. -/
theorem working_step (he : Effect cfg affinity xadd s l s') (hp : s.worker p = .working) :
    s'.worker p = .working := by
  have hother : ∀ q c, s.worker q ≠ .working →
      Function.update s.worker q c p = .working := by
    intro q c hq
    have hpq : p ≠ q := by
      rintro rfl
      exact hq hp
    rw [Function.update_of_ne hpq]
    exact hp
  cases he with
  | add q hxadd hq => exact hother q _ (by simp [starting_of_passed hq])
  | load q hxadd hq => exact hother q _ (by simp [starting_of_passed hq])
  | store q v hq => exact hother q _ (by simp [hq])
  | _ => exact hp

/-! ### What the constructor guarantees -/

/-- Nobody is let through before all threads have been created and have come, and when the
constructor returns all of them are at work, with the attributes they should have. -/
structure State.Safe (cfg : Config π) (affinity : Option (ℕ → ℕ → Word)) (s : State B) : Prop where
  together : ∀ p, s.worker p ≠ .starting ∨ 0 < (B.visits s.startUpBarrier).left p →
    s.index = cfg.numThreads ∧ ∀ q, 0 < (B.visits s.startUpBarrier).entered q
  working : s.main = .returned → ∀ p, s.worker p = .working
  data : s.main = .returned →
    ∀ t < cfg.numThreads, s.threadData t = some (attrOf cfg affinity t)

theorem working_reachable (hr : (system cfg affinity xadd B).Reachable (fun _ _ => True) s) :
    s.main = .returned → ∀ p, s.worker p = .working := by
  refine hr.invariant' (I := fun s => s.main = .returned → ∀ p, s.worker p = .working)
    (fun h => by cases h) ?_
  intro s l s' hr h _ hs hmain p
  have he := step_effect hs
  by_cases hold : s.main = .returned
  · exact working_step he (h hold p)
  · cases he with
    | full _ hcount => exact working_of_full (exact_or_short hr) hcount p
    | _ => first | cases hmain | exact absurd hmain hold

theorem start_up_safe (hsize : cfg.numThreads = size.toNat)
    (hr : (system cfg affinity xadd B).Reachable (fun _ _ => True) s) : s.Safe cfg affinity := by
  have hsound := sound_reachable hr
  have hcounted := counted_reachable hr
  refine ⟨fun p hp => ?_, working_reachable hr, fun hmain t ht => ?_⟩
  · have hleft : 0 < (B.visits s.startUpBarrier).left p := hp.elim (hsound.left p) id
    have hentered : ∀ q, 0 < (B.visits s.startUpBarrier).entered q := by
      intro q
      have := left_le_entered hsound.reachable p q
      omega
    refine ⟨?_, hentered⟩
    have hlast := hsound.entered ⟨size.toNat - 1, by have := p.isLt; omega⟩ (hentered _)
    have := hcounted.index_le
    have := p.isLt
    simp only at hlast
    omega
  · exact hcounted.data t (by rw [hcounted.created (.inr hmain)]; exact ht)

/-- An `xadd` with the lock prefix stores what it has loaded, with no other store in between. -/
theorem undisturbed_of_locked {ls : List (Label B)} (hxadd : xadd = .locked)
    (hrun : (system cfg affinity xadd B).run (system cfg affinity xadd B).initial ls = some s) :
    (system cfg affinity xadd B).Along (fun s l _ => Undisturbed s l)
      (system cfg affinity xadd B).initial ls := by
  have hnever : ∀ s l t, (∀ p v, s.worker p ≠ .loaded v) →
      (system cfg affinity xadd B).step s l = some t →
      (Undisturbed s l ↔ True) ∧ (True → ∀ p v, t.worker p ≠ .loaded v) := by
    intro s l t hnone hs
    have hkeep : ∀ p c, (∀ v, c ≠ .loaded v) →
        ∀ q v, Function.update s.worker p c q ≠ .loaded v := by
      intro p c hc q v hq
      exact (loaded_of_update hq).elim (hc v) (hnone q v)
    cases step_effect hs with
    | add p => exact ⟨Iff.rfl, fun _ => hkeep p _ (by simp)⟩
    | load p hunlocked =>
      rw [hxadd] at hunlocked
      cases hunlocked
    | store p v hp => exact absurd hp (hnone p v)
    | _ => exact ⟨Iff.rfl, fun _ => hnone⟩
  have hstart : ∀ p v, (system cfg affinity xadd B).initial.worker p ≠ .loaded v := by
    intro p v h
    cases h
  exact (along_congr hnever hstart ls).mpr
    (along_labels.mpr ⟨by rw [hrun]; rfl, fun _ _ => trivial⟩)

/-- When all threads are at work, the constructor returns iff each store into the counter came
before any other after its load; otherwise it spins for ever. With the lock prefix each has. -/
theorem constructor_returns_iff {ls : List (Label B)}
    (hrun : (system cfg affinity xadd B).run (system cfg affinity xadd B).initial ls = some s)
    (hmain : s.main = .spinning) (hall : ∀ p, s.worker p = .working) :
    ((∃ ls' t, (system cfg affinity xadd B).run s ls' = some t ∧ t.main = .returned) ↔
        (system cfg affinity xadd B).Along (fun s l _ => Undisturbed s l)
          (system cfg affinity xadd B).initial ls) ∧
      (xadd = .locked → (system cfg affinity xadd B).Along (fun s l _ => Undisturbed s l)
        (system cfg affinity xadd B).initial ls) := by
  refine ⟨?_, fun hxadd => undisturbed_of_locked hxadd hrun⟩
  have hstarted : s.started = size.toNat := by
    have hkind : ∀ p, (s.worker p).isWorking = true := fun p => by simp [hall p, Pc.isWorking]
    exact (headcount_eq_card hkind).trans (Fintype.card_fin _)
  obtain ⟨hiff, hcase⟩ := along_iff_of_fork (S := system cfg affinity xadd B) (Q := Undisturbed)
    (I := State.Exact) (J := State.Short) (fun s h h' => by have := h.count; have := h'.count; omega)
    (fun s l s' h hl hs => h.step hl (step_effect hs))
    (fun s l s' h hl hs => h.disturb hl (step_effect hs))
    (fun s l s' h hs => h.step (step_effect hs)) exact_initial hrun
  rw [hiff]
  constructor
  · rintro ⟨ls', t, hrun', ht⟩
    refine hcase.resolve_right fun hshort => ?_
    have hnever := run_keeps' (S := system cfg affinity xadd B)
      (I := fun s => s.Short ∧ s.main = .spinning) (fun s l s' ⟨h, hmain⟩ hs => by
        have he := step_effect hs
        refine ⟨h.step he, ?_⟩
        cases he with
        | full _ hcount =>
          have hlt := h.count
          have hle : s.started ≤ size.toNat := by
            exact headcount_le_card.trans_eq (Fintype.card_fin _)
          rw [hcount] at hlt
          omega
        | create hm | fail hm | nextQueue hm | created hm | destroy hm => simp [hmain] at hm
        | spin => rfl
        | _ => exact hmain) ⟨hshort, hmain⟩ hrun'
    rw [hnever.2] at ht
    cases ht
  · intro hexact
    have hcount : s.threadStartCount = size :=
      BitVec.eq_of_toNat_eq (hexact.count.trans hstarted)
    exact ⟨[.test], { s with main := .returned }, by
      simp [System.run, system, step, move, hmain, hcount], rfl⟩

theorem visits_arrive (x : CyclicBarrier.Rounds (Fin size.toNat)) {q : Fin size.toNat} (hq : q ≠ p) :
    (x.arrive p).entered q = x.entered q ∧ (x.arrive p).left q = x.left q := by
  simp [CyclicBarrier.Rounds.arrive, Visits.enter, hq]

theorem visits_depart (x : CyclicBarrier.Rounds (Fin size.toNat)) {q : Fin size.toNat} (hq : q ≠ p) :
    (x.depart p).entered q = x.entered q ∧ (x.depart p).left q = x.left q := by
  simp [CyclicBarrier.Rounds.depart, Visits.leave, hq]

def Barrier.futex (size : Word) : Barrier size where
  State := InternalBarrier.Futex.State size
  Label := InternalBarrier.Label size
  system := InternalBarrier.Futex.system size
  thread := fun l => l.thread
  visits := fun s => s.rounds.toVisits
  refines := InternalBarrier.Futex.refines_visits size
  others := by
    intro s l s' hs q hq
    simp only [InternalBarrier.Futex.system, InternalBarrier.Futex.step] at hs
    split at hs
    next =>
      simp only [InternalBarrier.Futex.next] at hs
      split at hs <;> cases hs
      all_goals first
        | exact visits_arrive _ hq
        | exact visits_depart _ hq
        | exact ⟨rfl, rfl⟩
    next =>
      cases hs
      exact ⟨rfl, rfl⟩
    next => cases hs

def Barrier.pthread (size : Word) : Barrier size where
  State := InternalBarrier.Pthread.State size
  Label := InternalBarrier.Label size
  system := InternalBarrier.Pthread.system size
  thread := fun l => l.thread
  visits := fun s => s.rounds.toVisits
  refines := InternalBarrier.Pthread.refines_visits size
  others := by
    intro s l s' hs q hq
    simp only [InternalBarrier.Pthread.system, InternalBarrier.Pthread.step] at hs
    split at hs
    next =>
      simp only [InternalBarrier.Pthread.next] at hs
      split at hs <;> try split at hs
      all_goals cases hs
      all_goals first
        | exact visits_arrive _ hq
        | exact visits_depart _ hq
        | exact ⟨rfl, rfl⟩
    next =>
      cases hs
      exact ⟨rfl, rfl⟩
    next => cases hs

def Barrier.windows (size : Word) : Barrier size where
  State := WindowsBarrier.State size
  Label := Fin size.toNat
  system := WindowsBarrier.system size
  thread := id
  visits := fun s => s.shared.rounds.toVisits
  refines := WindowsBarrier.refines_visits size
  others := by
    intro s p s' hs q hq
    cases WindowsCond.step_effect (K := WindowsBarrier.program size) hs with
    | update hop =>
      rename_i c f _
      cases c <;> cases hop
      all_goals first
        | exact visits_arrive _ hq
        | exact visits_depart _ hq
        | exact ⟨rfl, rfl⟩
    | _ => exact ⟨rfl, rfl⟩

/-- On Windows, with exceptions, the constructor for more than `MAX_COUNT + 1` workers never
returns. -/
theorem large_never_starts (hlarge : WindowsCond.maxCount + 1 < size.toNat)
    {s : State (Barrier.windows size)}
    (hr : (system cfg affinity xadd (Barrier.windows size)).Reachable (fun _ _ => True) s) :
    s.main ≠ .returned ∧ ∀ p, s.worker p = .starting := by
  have hsound := sound_reachable hr
  have hstarting : ∀ p, s.worker p = .starting := by
    intro p
    by_contra hp
    have hleft := hsound.left p hp
    have hzero := (WindowsBarrier.nobodyLeft_reachable hlarge hsound.reachable).2 p
    exact absurd hzero (Nat.ne_of_gt hleft)
  refine ⟨fun hmain => ?_, hstarting⟩
  have hworking := working_reachable hr hmain ⟨0, by omega⟩
  rw [hstarting] at hworking
  cases hworking

/-! ### Sample runs -/

/-- Two workers on two queues, over the barrier with futexes. -/
def twoWorkers (xadd : Xadd) : System (State (Barrier.futex 2)) (Label (Barrier.futex 2)) :=
  system (.small .cilkS [1, 1]) none xadd (Barrier.futex 2)

/-- Both workers are created and pass the barrier. -/
def meetRun : List (Label (Barrier.futex 2)) :=
  List.replicate 5 (.create true) ++
    InternalBarrier.Futex.roundRun.map fun l => .barrier (B := Barrier.futex 2) l

def workers : List (Fin (2 : Word).toNat) := List.finRange _

theorem start_up_safe_meetRun :
    let s := (twoWorkers .locked).final (meetRun ++ workers.map .add ++ [.test])
    s.main = .returned ∧ s.Safe (.small .cilkS [1, 1]) none := by
  intro s
  have hr : (twoWorkers .locked).Reachable (fun _ _ => True) s := reachable_final (by decide)
  exact ⟨by decide, start_up_safe (by decide) hr⟩

/-- Both workers load the counter before either stores. -/
def lostRun : List (Label (Barrier.futex 2)) := meetRun ++ workers.map .load ++ workers.map .store

theorem constructor_returns_iff_lostRun :
    ∃ s, (twoWorkers .unlocked).run (twoWorkers .unlocked).initial lostRun = some s ∧
      ¬∃ ls t, (twoWorkers .unlocked).run s ls = some t ∧ t.main = .returned := by
  obtain ⟨s, hrun⟩ := Option.isSome_iff_exists.mp
    (show ((twoWorkers .unlocked).run (twoWorkers .unlocked).initial lostRun).isSome by decide)
  have hs : s = (twoWorkers .unlocked).final lostRun := by
    unfold System.final
    rw [hrun]
    rfl
  have hmain : s.main = .spinning := by
    rw [hs]
    decide
  have hall : ∀ p, s.worker p = .working := by
    rw [hs]
    decide
  refine ⟨s, hrun, (not_congr (constructor_returns_iff hrun hmain hall).1).mpr ?_⟩
  decide

/-- The second worker cannot be created, and the first one comes to the barrier. -/
def failedRun : List (Label (Barrier.futex 2)) := [.create true, .create true, .create false]

theorem large_never_starts_one :
    let s := (system (.small .cilkS [1026]) none .unlocked (Barrier.windows 1026)).final
      [.create true]
    s.index = 1 ∧ s.main ≠ .returned ∧ ∀ p, s.worker p = .starting := by
  intro s
  have hr : (system (.small .cilkS [1026]) none .unlocked (Barrier.windows 1026)).Reachable
      (fun _ _ => True) s := reachable_final (by decide)
  exact ⟨by decide, large_never_starts (by decide) hr⟩

end PFunc.StartUp
