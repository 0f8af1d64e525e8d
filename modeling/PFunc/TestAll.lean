import PFunc.Exceptions
import PFunc.Task

/-!
# Testing a range of tasks

Both loops call the same test for one task after the other. That of the C function writes the
result of the test to the entry of its task. That of the C++ function writes every result to
the first entry and returns the last one, since nothing advances its index. A test that
rethrows the exception of its task ends either loop. The loops are generic in the test, whose
state may have a part that other threads move between two calls.
-/

namespace PFunc.TestAll

open Event Exceptions

/-- What a call leaves behind. -/
structure Outcome (σ ε β : Type) where
  state : σ
  completionArr : ℕ → ℤ
  result : Except ε β

section Loops

variable {τ σ ε : Type} (test : τ → σ → σ × Except ε Bool)

/-- The loop of `pfunc::test_all`. -/
def testAllLoop (i : ℕ) (returnValue : Bool) : List τ → σ → (ℕ → ℤ) → Outcome σ ε Bool
  | [], s, completionArr => ⟨s, completionArr, .ok returnValue⟩
  | task :: tasks, s, completionArr =>
    match test task s with
    | (s', .ok b) =>
      testAllLoop i b tasks s' (Function.update completionArr i (if b then 1 else 0))
    | (s', .error e) => ⟨s', completionArr, .error e⟩

/-- `pfunc::test_all` -/
def testAll (tasks : List τ) (s : σ) (completionArr : ℕ → ℤ) : Outcome σ ε Bool :=
  testAllLoop test 0 false tasks s completionArr

/-- The loop of the C functions, from entry `i` on. -/
def cTestAllLoop (i : ℕ) : List τ → σ → (ℕ → ℤ) → Outcome σ ε Unit
  | [], s, completed => ⟨s, completed, .ok ()⟩
  | task :: tasks, s, completed =>
    match test task s with
    | (s', .ok b) =>
      cTestAllLoop (i + 1) tasks s' (Function.update completed i (if b then 1 else 0))
    | (s', .error e) => ⟨s', completed, .error e⟩

/-- `pfunc_<sched>_test_all` -/
def cTestAll (tasks : List τ) (s : σ) (completed : ℕ → ℤ) : Outcome σ ε Unit :=
  cTestAllLoop test 0 tasks s completed

/-- The results of testing the tasks in turn, up to the first test that throws. -/
def tested : List τ → σ → List Bool
  | [], _ => []
  | task :: tasks, s =>
    match test task s with
    | (s', .ok b) => b :: tested tasks s'
    | (_, .error _) => []

/-- The arrays of the two functions agree, and a call that returns reports every task. -/
def ReportsEvery (tasks : List τ) (s : σ) (completionArr : ℕ → ℤ) : Prop :=
  (testAll test tasks s completionArr).completionArr =
      (cTestAll test tasks s completionArr).completionArr ∧
    ∀ b, (testAll test tasks s completionArr).result = .ok b →
      (b = true ↔ ∀ c ∈ tested test tasks s, c = true) ∧
      ∀ i, ∀ c ∈ (tested test tasks s)[i]?,
        (testAll test tasks s completionArr).completionArr i = if c then 1 else 0

variable {test} {tasks : List τ} {s : σ} {completionArr : ℕ → ℤ} {i j : ℕ}

/-- The index of the C++ loop never moves. -/
theorem testAllLoop_other {returnValue : Bool} (hj : j ≠ i) :
    (testAllLoop test i returnValue tasks s completionArr).completionArr j = completionArr j := by
  induction tasks generalizing s completionArr returnValue with
  | nil => rfl
  | cons task tasks ih =>
    rcases ht : test task s with ⟨s', e | b⟩
    · simp [testAllLoop, ht]
    · simp only [testAllLoop, ht]
      rw [ih, Function.update_of_ne hj]

theorem cTestAllLoop_before (hj : j < i) :
    (cTestAllLoop test i tasks s completionArr).completionArr j = completionArr j := by
  induction tasks generalizing s completionArr i with
  | nil => rfl
  | cons task tasks ih =>
    have hne : j ≠ i := by omega
    rcases ht : test task s with ⟨s', e | b⟩
    · simp [cTestAllLoop, ht]
    · simp only [cTestAllLoop, ht]
      rw [ih (by omega), Function.update_of_ne hne]

/-- The C loop fills the entry of each task whose test returns. -/
theorem cTestAllLoop_entry {c : Bool} (hc : (tested test tasks s)[j]? = some c) :
    (cTestAllLoop test i tasks s completionArr).completionArr (i + j) = if c then 1 else 0 := by
  induction tasks generalizing s completionArr i j with
  | nil => simp [tested] at hc
  | cons task tasks ih =>
    rcases ht : test task s with ⟨s', e | b⟩
    · simp [tested, ht] at hc
    · simp only [tested, ht] at hc
      simp only [cTestAllLoop, ht]
      cases j with
      | zero =>
        simp only [List.getElem?_cons_zero, Option.some.injEq] at hc
        subst hc
        rw [cTestAllLoop_before (by omega)]
        simp
      | succ j =>
        rw [List.getElem?_cons_succ] at hc
        rw [show i + (j + 1) = i + 1 + j by omega]
        exact ih hc

theorem cTestAll_entry {c : Bool} (hc : (tested test tasks s)[j]? = some c) :
    (cTestAll test tasks s completionArr).completionArr j = if c then 1 else 0 := by
  have h : (cTestAllLoop test 0 tasks s completionArr).completionArr (0 + j) = _ :=
    cTestAllLoop_entry hc
  rwa [Nat.zero_add] at h

/-- A second test that returns leaves its entry as it was. -/
theorem not_reportsEvery {task task' : τ} {s₁ s₂ : σ} {b b' : Bool} (ht : test task s = (s₁, .ok b))
    (ht' : test task' s₁ = (s₂, .ok b')) :
    ¬ReportsEvery test (task :: task' :: tasks) s fun _ => 2 := by
  intro h
  have hentry := congrFun h.1 1
  have hc : (tested test (task :: task' :: tasks) s)[1]? = some b' := by simp [tested, ht, ht']
  rw [cTestAll_entry hc, testAll, testAllLoop_other (by omega)] at hentry
  cases b' <;> simp at hentry

theorem reportsEvery_singleton (task : τ) : ReportsEvery test [task] s completionArr := by
  rcases ht : test task s with ⟨s', e | b⟩
  · simp [ReportsEvery, testAll, testAllLoop, cTestAll, cTestAllLoop, tested, ht]
  · refine ⟨by simp [testAll, testAllLoop, cTestAll, cTestAllLoop, ht], ?_⟩
    intro b' hb'
    simp only [testAll, testAllLoop, ht, Except.ok.injEq] at hb'
    subst hb'
    refine ⟨by simp [tested, ht], ?_⟩
    intro i c hc
    cases i with
    | zero =>
      simp only [tested, ht, List.getElem?_cons_zero, Option.mem_some] at hc
      subst hc
      simp [testAll, testAllLoop, ht]
    | succ i => simp [tested, ht] at hc

end Loops

/-- At most one of the tests of a range returns: there is one task, or the first or the second
test throws. -/
def Lone {τ σ ε : Type} (test : τ → σ → σ × Except ε Bool) (tasks : List τ) (s : σ) : Prop :=
  match tasks with
  | task :: task' :: _ =>
    match test task s with
    | (s', .ok _) => (test task' s').2.isOk = false
    | (_, .error _) => True
  | _ => True

instance {τ σ ε : Type} (test : τ → σ → σ × Except ε Bool) (tasks : List τ) (s : σ) :
    Decidable (Lone test tasks s) := by
  unfold Lone
  split
  · split <;> infer_instance
  · infer_instance

/-- `test_all` reports every task of a range, whatever its array holds before, iff at most one
of the tests returns. -/
theorem testAll_reports_iff {τ σ ε : Type} (test : τ → σ → σ × Except ε Bool) {tasks : List τ}
    (hne : tasks ≠ []) (s : σ) :
    (∀ completionArr, ReportsEvery test tasks s completionArr) ↔ Lone test tasks s := by
  rcases tasks with _ | ⟨task, _ | ⟨task', tasks⟩⟩
  · exact absurd rfl hne
  · exact iff_of_true (fun _ => reportsEvery_singleton task) trivial
  · rcases ht : test task s with ⟨s₁, e | b⟩
    · refine iff_of_true ?_ (by simp [Lone, ht])
      intro completionArr
      simp [ReportsEvery, testAll, testAllLoop, cTestAll, cTestAllLoop, ht]
    · rcases ht' : test task' s₁ with ⟨s₂, e | b'⟩
      · refine iff_of_true ?_ (by simp [Lone, ht, ht', Except.isOk, Except.toBool])
        intro completionArr
        simp [ReportsEvery, testAll, testAllLoop, cTestAll, cTestAllLoop, ht, ht']
      · refine iff_of_false ?_ (by simp [Lone, ht, ht', Except.isOk, Except.toBool])
        intro h
        exact not_reportsEvery ht ht' (h _)

/-! ### The test of a task -/

/-- Tasks, their exception pointers and their groups. -/
structure Tasks (π : Type) where
  task : Handle → Task π
  except : Handle → Option Exception
  group : GroupId → Group

variable {π : Type}

/-- `task::test`, with no access of another thread in between. -/
def testTask (h : Handle) (s : Tasks π) : Tasks π × Except Exception Bool :=
  match s.except h with
  | some e => (s, .error e)
  | none =>
    let t := s.task h
    let r := if t.attr.isNested then t.testingCompl.testAlone else t.waitingCompl.testAlone
    let t' : Task π := if t.attr.isNested then { t with testingCompl := r.1 }
      else { t with waitingCompl := r.1 }
    let group := match r.2 && t.attr.joinGroup, t.grp with
      | true, some g => Function.update s.group g (s.group g).leaveGroup
      | _, _ => s.group
    ({ s with task := Function.update s.task h t', group := group }, .ok r.2)

/-- Of two tasks or more, the first or the second holds an exception. -/
theorem lone_testTask_iff {h h' : Handle} {hs : List Handle} {s : Tasks π} :
    Lone testTask (h :: h' :: hs) s ↔ (s.except h).isSome ∨ (s.except h').isSome := by
  cases he : s.except h with
  | some e => simp [Lone, testTask, he]
  | none => cases he' : s.except h' <;> simp [Lone, testTask, he, he', Except.isOk, Except.toBool]

/-- Task 0 has been queued and task 1 has completed; task 2 has thrown. -/
def mixedTasks : Tasks ℕ where
  task := fun h => if h = 0 then (Task.new 0).resetCompletion 1
    else ((Task.new 0).resetCompletion 1).notify
  except := fun h => if h = 2 then some ⟨"run", "thrown", pfuncError⟩ else none
  group := fun _ => .new 2 .spin

theorem testAll_reports_iff_mixedTasks :
    ((∀ completionArr, ReportsEvery testTask [0] mixedTasks completionArr) ↔
        Lone testTask [0] mixedTasks) ∧
      ((∀ completionArr, ReportsEvery testTask [1, 2, 0] mixedTasks completionArr) ↔
        Lone testTask [1, 2, 0] mixedTasks) :=
  ⟨testAll_reports_iff testTask (by decide) mixedTasks,
    testAll_reports_iff testTask (by decide) mixedTasks⟩

/-- The incomplete task is tested first: `test_all` returns true, reports it complete and says
nothing about the other one, of which the C function reports both. -/
theorem testAll_misreports :
    ¬(∀ completionArr, ReportsEvery testTask [0, 1] mixedTasks completionArr) ∧
      (testAll testTask [0, 1] mixedTasks fun _ => 0).result.toOption = some true ∧
      (testAll testTask [0, 1] mixedTasks fun _ => 0).completionArr 0 = 1 ∧
      (testAll testTask [0, 1] mixedTasks fun _ => 0).completionArr 1 = 0 ∧
      (cTestAll testTask [0, 1] mixedTasks fun _ => 0).completionArr 0 = 0 ∧
      (cTestAll testTask [0, 1] mixedTasks fun _ => 0).completionArr 1 = 1 := by
  refine ⟨?_, by decide, by decide, by decide, by decide, by decide⟩
  intro h
  have hentry := congrFun (h fun _ => 0).1 0
  exact absurd hentry (by decide)

end PFunc.TestAll
