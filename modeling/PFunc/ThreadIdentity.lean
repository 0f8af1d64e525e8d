import PFunc.LabelledRuns
import Mathlib.Algebra.Ring.Nat

/-!
# The identity of a thread among several task managers

The main thread constructs and destroys task managers and calls them. Each has its own map
from threads to attributes. With thread-local storage the map is indexed by a number that a
thread has once for all managers; otherwise its key is the native identity of the thread.
-/

namespace PFunc.ThreadIdentity

open LabelledRuns

/-- `PFUNC_HAVE_TLS`, or a map keyed by native identities. -/
inductive Build where
  | tls
  | map
  deriving DecidableEq

/-- The fields of `thread_attr` that the task manager reads again. -/
structure ThreadAttr where
  threadId : ℕ
  taskQueueNumber : ℕ
  deriving DecidableEq

inductive Thread where
  | main
  /-- worker `i` of manager `m` -/
  | worker (m i : ℕ)
  deriving DecidableEq

inductive Key where
  | index (i : ℕ)
  | native (t : Thread)
  deriving DecidableEq

/-- A null pointer is `none`. -/
structure Manager where
  numThreads : ℕ
  threadData : List ThreadAttr
  tlsAttrMap : Key → Option ThreadAttr
  /-- the workers counted by `thread_start_count` -/
  started : ℕ → Bool
  alive : Bool

structure State where
  /-- `pfunc_thread_self_id` -/
  selfId : Thread → ℕ
  manager : ℕ → Manager
  constructed : ℕ
  /-- the main thread is in the constructor of the last manager -/
  constructing : Bool

inductive Label where
  | construct (threadsPerQueue : List ℕ)
  /-- worker `i` of the manager in construction enters its function -/
  | start (i : ℕ)
  /-- the constructor returns -/
  | ready
  | destroy (m : ℕ)
  /-- the main thread calls manager `m` -/
  | call (m : ℕ)
  deriving DecidableEq

/-- The attributes of the workers, numbered queue by queue. -/
def threadData (threadsPerQueue : List ℕ) : List ThreadAttr :=
  (threadsPerQueue.zipIdx.flatMap fun e => List.replicate e.1 e.2).zipIdx.map
    fun e => ⟨e.2, e.1⟩

/-- The main thread puts on queue 0. -/
def mainThreadAttr (numThreads : ℕ) : ThreadAttr := ⟨numThreads, 0⟩

variable (build : Build)

namespace State

/-- What a thread uses to look itself up. -/
def key (s : State) (t : Thread) : Key :=
  match build with
  | .tls => .index (s.selfId t)
  | .map => .native t

def setManager (s : State) (m : ℕ) (x : Manager) : State :=
  { s with manager := Function.update s.manager m x }

def setSelfId (s : State) (t : Thread) (i : ℕ) : State :=
  { s with selfId := Function.update s.selfId t i }

def tlsSet (s : State) (t : Thread) (m : ℕ) (attr : ThreadAttr) : State :=
  s.setManager m { s.manager m with
    tlsAttrMap := Function.update (s.manager m).tlsAttrMap (s.key build t) (some attr) }

/-- The pointer that `tls_get` returns; there is none past the end of the vector. -/
def tlsGet (s : State) (t : Thread) (m : ℕ) : Option (Option ThreadAttr) :=
  match s.key build t with
  | .index i => if i < (s.manager m).numThreads + 1 then
      some ((s.manager m).tlsAttrMap (.index i)) else none
  | .native t => some ((s.manager m).tlsAttrMap (.native t))

/-- The constructor up to the creation of the workers. -/
def construct (s : State) (threadsPerQueue : List ℕ) : State :=
  let m := s.constructed
  let numThreads := threadsPerQueue.sum
  let x : Manager := ⟨numThreads, threadData threadsPerQueue, fun _ => none, fun _ => false, true⟩
  tlsSet build { (s.setManager m x).setSelfId .main numThreads with
    constructed := m + 1, constructing := true } .main m (mainThreadAttr numThreads)

/-- A worker of manager `m` stores its number and its attribute. -/
def start (s : State) (m i : ℕ) (attr : ThreadAttr) : State :=
  let s' := (s.setSelfId (.worker m i) attr.threadId).tlsSet build (.worker m i) m attr
  s'.setManager m { s'.manager m with
    started := Function.update (s'.manager m).started i true }

/-- The manager that was constructed last. -/
def last (s : State) : Manager := s.manager (s.constructed - 1)

end State

def step (s : State) : Label → Option State
  | .construct threadsPerQueue =>
    if s.constructing then none else some (s.construct build threadsPerQueue)
  | .start i =>
    if s.constructing ∧ s.last.started i = false then
      s.last.threadData[i]?.map (s.start build (s.constructed - 1) i)
    else none
  | .ready =>
    if s.constructing ∧ ∀ i < s.last.numThreads, s.last.started i then
      some { s with constructing := false }
    else none
  | .destroy m =>
    if s.constructing = false ∧ m < s.constructed ∧ (s.manager m).alive then
      some (s.setManager m { s.manager m with alive := false })
    else none
  | .call m =>
    if s.constructing = false ∧ m < s.constructed ∧ (s.manager m).alive then some s else none

def system : System State Label where
  initial := ⟨fun _ => 0, fun _ => ⟨0, [], fun _ => none, fun _ => false, false⟩, 0, false⟩
  step := step build

/-- In manager `m` the main thread finds an attribute, and it is no worker's. -/
def State.Known (s : State) (m : ℕ) : Prop :=
  ∃ attr, s.tlsGet build .main m = some (some attr) ∧
    attr.threadId = (s.manager m).numThreads

/-! ### What every construction leaves in the maps -/

theorem threadId_of_threadData {threadsPerQueue : List ℕ} {i : ℕ} {a : ThreadAttr}
    (h : (threadData threadsPerQueue)[i]? = some a) : a.threadId = i := by
  simp only [threadData, List.getElem?_map, List.getElem?_zipIdx, Option.map_map,
    Option.map_eq_some_iff] at h
  obtain ⟨q, _, rfl⟩ := h
  simp

theorem length_threadData (threadsPerQueue : List ℕ) :
    (threadData threadsPerQueue).length = threadsPerQueue.sum := by
  have hfst : threadsPerQueue.zipIdx.map Prod.fst = threadsPerQueue := by
    simp [List.zipIdx_map_fst]
  simp only [threadData, List.length_map, List.length_zipIdx, List.length_flatMap,
    List.length_replicate]
  exact congrArg List.sum hfst

/-- The key of the main thread in the map of a manager. -/
def mainKey (build : Build) (numThreads : ℕ) : Key :=
  match build with
  | .tls => .index numThreads
  | .map => .native .main

/-- A manager without workers yet. -/
def newManager (build : Build) (threadsPerQueue : List ℕ) : Manager where
  numThreads := threadsPerQueue.sum
  threadData := threadData threadsPerQueue
  tlsAttrMap := Function.update (fun _ => none) (mainKey build threadsPerQueue.sum)
    (some (mainThreadAttr threadsPerQueue.sum))
  started := fun _ => false
  alive := true

variable {build : Build} {s s' : State}

structure Manager.Filled (build : Build) (x : Manager) : Prop where
  main : x.tlsAttrMap (mainKey build x.numThreads) = some (mainThreadAttr x.numThreads)
  index : ∀ i, ∀ a ∈ x.tlsAttrMap (.index i), a.threadId = i
  data : ∀ i, ∀ a ∈ x.threadData[i]?, a.threadId = i ∧ i < x.numThreads

structure State.Filled (build : Build) (s : State) : Prop where
  selfId : 0 < s.constructed → s.selfId .main = s.last.numThreads
  manager : ∀ m < s.constructed, (s.manager m).Filled build
  constructing : s.constructing → 0 < s.constructed

/-- The entry that worker `i` makes, in place or not in place of an earlier one. -/
def workerKey (build : Build) (m i : ℕ) (a : ThreadAttr) : Key :=
  match build with
  | .tls => .index a.threadId
  | .map => .native (.worker m i)

theorem construct_manager (build : Build) (s : State) (threadsPerQueue : List ℕ) :
    (s.construct build threadsPerQueue).manager =
      Function.update s.manager s.constructed (newManager build threadsPerQueue) := by
  cases build <;>
    simp [newManager, mainKey, State.construct, State.tlsSet, State.setManager, State.setSelfId,
      State.key]

theorem start_manager (build : Build) (s : State) (m i : ℕ) (a : ThreadAttr) :
    (s.start build m i a).manager = Function.update s.manager m
      { s.manager m with
        tlsAttrMap := Function.update (s.manager m).tlsAttrMap (workerKey build m i a) (some a)
        started := Function.update (s.manager m).started i true } := by
  cases build <;>
    simp [State.start, State.tlsSet, State.setManager, State.setSelfId, State.key, workerKey]

theorem filled_new (build : Build) (threadsPerQueue : List ℕ) :
    (newManager build threadsPerQueue).Filled build := by
  constructor
  · simp [newManager]
  · intro i a ha
    have ha : a ∈ Function.update (fun _ => none) (mainKey build threadsPerQueue.sum)
        (some (mainThreadAttr threadsPerQueue.sum)) (.index i) := ha
    by_cases hkey : Key.index i = mainKey build threadsPerQueue.sum
    · rw [hkey, Function.update_self] at ha
      cases ha
      cases build with
      | tls => exact (Key.index.inj hkey).symm
      | map => cases hkey
    · rw [Function.update_of_ne hkey] at ha
      cases ha
  · intro i a ha
    have hlt : i < (threadData threadsPerQueue).length := (List.getElem?_eq_some_iff.mp ha).1
    rw [length_threadData] at hlt
    exact ⟨threadId_of_threadData ha, hlt⟩

theorem Manager.Filled.start {x : Manager} {m i : ℕ} {a : ThreadAttr} {started : ℕ → Bool}
    (h : x.Filled build) (ha : a ∈ x.threadData[i]?) :
    Manager.Filled build { x with
      tlsAttrMap := Function.update x.tlsAttrMap (workerKey build m i a) (some a)
      started := started } := by
  obtain ⟨hid, hlt⟩ := h.data i a ha
  constructor
  · -- no worker has the key of the main thread
    have hne : mainKey build x.numThreads ≠ workerKey build m i a := by
      cases build with
      | tls =>
        intro heq
        have : x.numThreads = a.threadId := Key.index.inj heq
        omega
      | map => simp [mainKey, workerKey]
    exact (Function.update_of_ne hne _ _).trans h.main
  · intro j b hb
    by_cases hkey : Key.index j = workerKey build m i a
    · have hb : b ∈ Function.update x.tlsAttrMap (workerKey build m i a) (some a) (.index j) := hb
      rw [hkey, Function.update_self] at hb
      cases hb
      cases build with
      | tls => exact (Key.index.inj hkey).symm
      | map => cases hkey
    · have hb : b ∈ Function.update x.tlsAttrMap (workerKey build m i a) (some a) (.index j) := hb
      rw [Function.update_of_ne hkey] at hb
      exact h.index j b hb
  · exact h.data

theorem filled_construct {threadsPerQueue : List ℕ} (h : s.Filled build) :
    (s.construct build threadsPerQueue).Filled build := by
  have hmanager := construct_manager build s threadsPerQueue
  have hconstructed : (s.construct build threadsPerQueue).constructed = s.constructed + 1 := rfl
  constructor
  · intro _
    have hself : (s.construct build threadsPerQueue).selfId .main = threadsPerQueue.sum := by
      simp [State.construct, State.tlsSet, State.setManager, State.setSelfId]
    rw [State.last, hmanager, hconstructed, hself, Nat.add_sub_cancel, Function.update_self]
    rfl
  · intro m hm
    rw [hmanager]
    by_cases hne : m = s.constructed
    · subst hne
      rw [Function.update_self]
      exact filled_new build threadsPerQueue
    · rw [Function.update_of_ne hne]
      exact h.manager m (by omega)
  · intro _
    omega

theorem filled_start {m i : ℕ} {a : ThreadAttr} (h : s.Filled build) (hm : m < s.constructed)
    (ha : a ∈ (s.manager m).threadData[i]?) : (s.start build m i a).Filled build := by
  have hmanager := start_manager build s m i a
  have hthreads : ∀ m', ((s.start build m i a).manager m').numThreads =
      (s.manager m').numThreads := by
    intro m'
    rw [hmanager]
    by_cases hne : m' = m
    · subst hne
      rw [Function.update_self]
    · rw [Function.update_of_ne hne]
  constructor
  · intro hpos
    have hself : (s.start build m i a).selfId .main = s.selfId .main := by
      simp [State.start, State.tlsSet, State.setManager, State.setSelfId]
    rw [hself, State.last, hthreads]
    exact h.selfId hpos
  · intro m' hm'
    rw [hmanager]
    by_cases hne : m' = m
    · subst hne
      rw [Function.update_self]
      exact (h.manager m' hm).start ha
    · rw [Function.update_of_ne hne]
      exact h.manager m' hm'
  · exact h.constructing

theorem filled_destroy {m : ℕ} (h : s.Filled build) :
    (s.setManager m { s.manager m with alive := false }).Filled build := by
  have hcases : ∀ m', (s.setManager m { s.manager m with alive := false }).manager m' =
      { s.manager m' with alive := (s.manager m').alive && m' ≠ m } := by
    intro m'
    by_cases hne : m' = m
    · subst hne
      simp [State.setManager]
    · simp [State.setManager, hne]
  constructor
  · intro hpos
    rw [State.last, hcases]
    exact h.selfId hpos
  · intro m' hm'
    rw [hcases]
    exact ⟨(h.manager m' hm').main, (h.manager m' hm').index, (h.manager m' hm').data⟩
  · exact h.constructing

theorem filled_step {l : Label} (h : s.Filled build) (hs : step build s l = some s') :
    s'.Filled build := by
  cases l with
  | construct threadsPerQueue =>
    simp only [step] at hs
    split at hs
    · cases hs
    · cases hs
      exact filled_construct h
  | start i =>
    simp only [step] at hs
    split at hs
    · rename_i hguard
      obtain ⟨a, ha, rfl⟩ := Option.map_eq_some_iff.mp hs
      have := h.constructing hguard.1
      exact filled_start h (by omega) ha
    · cases hs
  | ready =>
    simp only [step] at hs
    split at hs
    · cases hs
      exact ⟨h.selfId, h.manager, fun hc => absurd hc (by simp)⟩
    · cases hs
  | destroy m =>
    simp only [step] at hs
    split at hs
    · cases hs
      exact filled_destroy h
    · cases hs
  | call m =>
    simp only [step] at hs
    split at hs
    · cases hs
      exact h
    · cases hs

theorem filled_reachable (hr : (system build).Reachable (fun _ _ => True) s) :
    s.Filled build := by
  apply hr.invariant
  · exact ⟨fun h => absurd h (by simp [system]), fun _ hm => absurd hm (by simp [system]),
      fun h => absurd h (by simp [system])⟩
  · intro s l t h _ hs
    exact filled_step h hs

/-! ### What the main thread finds -/

/-- In the build without thread-local storage the main thread is never taken for a worker. -/
theorem known_map {m : ℕ} (h : s.Filled .map) (hm : m < s.constructed) : s.Known .map m := by
  refine ⟨mainThreadAttr (s.manager m).numThreads, ?_, rfl⟩
  exact congrArg some (h.manager m hm).main

theorem tlsGet_tls (s : State) (t : Thread) (m : ℕ) :
    s.tlsGet .tls t m = if s.selfId t < (s.manager m).numThreads + 1 then
      some ((s.manager m).tlsAttrMap (.index (s.selfId t))) else none := rfl

theorem known_tls {m : ℕ} (h : s.Filled .tls) (hm : m < s.constructed) :
    s.Known .tls m ↔ s.last.numThreads = (s.manager m).numThreads := by
  have hfilled := h.manager m hm
  rw [← h.selfId (by omega)]
  unfold State.Known
  rw [tlsGet_tls]
  constructor
  · rintro ⟨attr, hattr, hid⟩
    split at hattr
    · rw [← hid, hfilled.index _ attr (Option.some.inj hattr)]
    · cases hattr
  · intro heq
    rw [heq, if_pos (Nat.lt_succ_self _)]
    exact ⟨mainThreadAttr (s.manager m).numThreads, congrArg some hfilled.main, rfl⟩

/-- With thread-local storage the calls of a run are right iff each is made to a manager with
as many workers as the last manager constructed before it. -/
theorem main_known_iff (as : List Label) :
    (system .tls).Along (fun s l _ => ∀ m, l = .call m → s.Known .tls m)
        (system .tls).initial as ↔
      (system .tls).Along
        (fun s l _ => ∀ m, l = .call m → s.last.numThreads = (s.manager m).numThreads)
        (system .tls).initial as := by
  apply System.along_congr (I := (system .tls).Reachable fun _ _ => True) _ .initial
  intro s l t hr hs
  constructor
  · apply forall_congr'
    intro m
    apply imp_congr_right
    rintro rfl
    have hm : m < s.constructed := by
      simp only [system, step] at hs
      split at hs
      · rename_i hguard
        exact hguard.2.1
      · cases hs
    exact known_tls (filled_reachable hr) hm
  · intro _
    exact hr.step trivial hs

/-- A manager with four workers on one queue, another one with two, and a call of the first. -/
def secondRun : List Label :=
  [.construct [4], .start 0, .start 1, .start 2, .start 3, .ready, .construct [2], .start 0,
    .start 1, .ready, .call 0]

/-- The main thread is taken for worker 2 of the first manager. -/
theorem taken_for_worker_secondRun :
    ¬∀ (s : State) (m : ℕ), (system .tls).Reachable (fun _ _ => True) s →
      (step .tls s (.call m)).isSome → s.Known .tls m := by
  intro h
  have hr : (system .tls).Reachable (fun _ _ => True) ((system .tls).final secondRun) :=
    System.reachable_final (by decide)
  obtain ⟨attr, hattr, hid⟩ := h _ 0 hr (by decide)
  have hworker : ((system .tls).final secondRun).tlsGet .tls .main 0 = some (some ⟨2, 0⟩) := by
    decide
  rw [hworker] at hattr
  cases hattr
  exact absurd hid (by decide)

end PFunc.ThreadIdentity
