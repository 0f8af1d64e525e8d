import PFunc.TaskManager

/-!
# `get_task` against arbitrary answers

The completion predicate and `task_queue->get` answer whatever they like. A step of a call takes
one answer, or yields. A task that `get` returns is never dropped, and null is returned only
after the predicate has been true.
-/

namespace PFunc.GetTask

open LabelledRuns Atomics

variable {W : Type}

/-- What a call asks for and is told. -/
inductive Event (W : Type) where
  | completion (answer : Bool)
  | get (answer : Option W)
  | yield
  deriving DecidableEq

/-- The program points of `get_task`. -/
inductive Pc where
  /-- before the predicate of the inner loop -/
  | test
  /-- before `task_queue->get` -/
  | get
  /-- before the predicate after the inner loop -/
  | check
  | yield
  | returned
  deriving DecidableEq

structure State (W : Type) where
  pc : Pc
  numAttempts : Word
  returnValue : Option W
  deriving DecidableEq

/-- Half as many attempts, and at least one. -/
def half (maxAttempts : Word) : Word := if maxAttempts / 2 = 0 then 1 else maxAttempts / 2

variable (decrement : Word → Word) (maxAttempts : Word)

/-- The code's `decrement` wraps. The attempts are counted only if the predicate is false. -/
def step (s : State W) : Event W → Option (State W)
  | .completion answer =>
    match s.pc with
    | .test =>
      if answer then some { s with pc := .check }
      else some { s with
        pc := if 0 < s.numAttempts then .get else .check
        numAttempts := decrement s.numAttempts }
    | .check =>
      if answer || s.returnValue.isSome then some { s with pc := .returned }
      else some { s with pc := .yield, numAttempts := half maxAttempts }
    | _ => none
  | .get answer =>
    match s.pc with
    | .get => some { s with pc := if answer.isSome then .check else .test, returnValue := answer }
    | _ => none
  | .yield =>
    match s.pc with
    | .yield => some { s with pc := .test }
    | _ => none

def system : System (State W) (Event W) where
  initial := ⟨.test, maxAttempts, none⟩
  step := step decrement maxAttempts

/-- `get_task`: `num_attempts--` is the decrement of unsigned numbers. -/
def getTask : System (State W) (Event W) := system (· - 1) maxAttempts

/-- The events that a point asks for, whatever the answer. -/
def Pc.Asks : Pc → Event W → Prop
  | .test, .completion _ => True
  | .check, .completion _ => True
  | .get, .get _ => True
  | .yield, .yield => True
  | _, _ => False

/-- How many times each round asks for a task, from the first round on; `yield` ends a round. -/
def gets : List (Event W) → List ℕ
  | [] => [0]
  | .completion _ :: as => gets as
  | .get _ :: as => (gets as).modifyHead (· + 1)
  | .yield :: as => 0 :: gets as

/-- The attempts left in the round. -/
def State.budget (s : State W) : ℕ :=
  match s.pc with
  | .test => s.numAttempts.toNat
  | .get => s.numAttempts.toNat + 1
  | _ => 0

/-- What each step does. -/
inductive Effect (s : State W) : Event W → State W → Prop
  | complete (hs : s.pc = .test) : Effect s (.completion true) { s with pc := .check }
  | attempt (hs : s.pc = .test) (hn : s.numAttempts ≠ 0) : Effect s (.completion false)
      { s with pc := .get, numAttempts := decrement s.numAttempts }
  | exhausted (hs : s.pc = .test) (hn : s.numAttempts = 0) : Effect s (.completion false)
      { s with pc := .check, numAttempts := decrement s.numAttempts }
  | missed (hs : s.pc = .get) : Effect s (.get none) { s with pc := .test, returnValue := none }
  | found (hs : s.pc = .get) (w : W) :
      Effect s (.get (some w)) { s with pc := .check, returnValue := some w }
  | leave (hs : s.pc = .check) (answer : Bool) (hcase : answer ∨ s.returnValue.isSome) :
      Effect s (.completion answer) { s with pc := .returned }
  | again (hs : s.pc = .check) (hnull : s.returnValue = none) : Effect s (.completion false)
      { s with pc := .yield, numAttempts := half maxAttempts }
  | yield (hs : s.pc = .yield) : Effect s .yield { s with pc := .test }

variable {decrement maxAttempts} {s t : State W} {e : Event W} {as : List (Event W)}

theorem step_eq_some_iff :
    step decrement maxAttempts s e = some t ↔ Effect decrement maxAttempts s e t := by
  constructor
  · intro h
    cases e with
    | completion answer =>
      simp only [step] at h
      split at h
      next hs =>
        cases answer with
        | true =>
          cases h
          exact .complete hs
        | false =>
          cases h
          by_cases hn : s.numAttempts = 0
          · rw [if_neg (by simp [hn])]
            exact .exhausted hs hn
          · rw [if_pos (by bv_omega)]
            exact .attempt hs hn
      next hs =>
        split at h
        next hcase =>
          cases h
          exact .leave hs answer (by simpa using hcase)
        next hcase =>
          simp only [Bool.or_eq_true, not_or, Bool.not_eq_true, Option.isSome_eq_false_iff,
            Option.isNone_iff_eq_none] at hcase
          obtain ⟨rfl, hnull⟩ := hcase
          cases h
          exact .again hs hnull
      next => cases h
    | get answer =>
      simp only [step] at h
      split at h
      next hs =>
        cases h
        cases answer with
        | none => exact .missed hs
        | some w => exact .found hs w
      next => cases h
    | yield =>
      simp only [step] at h
      split at h
      next hs =>
        cases h
        exact .yield hs
      next => cases h
  · intro h
    cases h with
    | attempt hs hn =>
      have hpos : 0 < s.numAttempts := by bv_omega
      simp only [step, hs, Bool.false_eq_true, if_false, if_pos hpos]
    | leave hs answer hcase => rcases hcase with rfl | hcase <;> simp [step, *]
    | _ => simp [step, *]

theorem step_isSome_iff : (step decrement maxAttempts s e).isSome ↔ s.pc.Asks e := by
  rcases e with answer | answer | _ <;> cases hpc : s.pc <;> simp [step, hpc, Pc.Asks]
  · split <;> rfl
  · split <;> rfl

theorem run_cons : (system decrement maxAttempts).run s (e :: as) = some t ↔
    ∃ m, Effect decrement maxAttempts s e m ∧
      (system decrement maxAttempts).run m as = some t := by
  simp only [← step_eq_some_iff]
  exact Option.bind_eq_some_iff

/-! ### A task in hand -/

theorem run_returned (hs : s.pc = .returned)
    (h : (system decrement maxAttempts).run s as = some t) : as = [] ∧ t = s := by
  cases as with
  | nil =>
    cases h
    exact ⟨rfl, rfl⟩
  | cons e as =>
    obtain ⟨m, hm, -⟩ := run_cons.mp h
    cases hm <;> simp_all

/-- With a task in hand, the call returns it after one more answer. -/
theorem run_in_hand (hs : s.pc = .check) (hw : s.returnValue.isSome)
    (h : (system decrement maxAttempts).run s as = some t) :
    as = [] ∧ t = s ∨ ∃ b, as = [.completion b] ∧ t = { s with pc := .returned } := by
  cases as with
  | nil =>
    cases h
    exact .inl ⟨rfl, rfl⟩
  | cons e as =>
    obtain ⟨m, hm, hrun⟩ := run_cons.mp h
    cases hm with
    | leave _ b _ =>
      obtain ⟨rfl, rfl⟩ := run_returned rfl hrun
      exact .inr ⟨b, rfl, rfl⟩
    | again _ hnull => simp [hnull] at hw
    | _ => simp_all

theorem run_found {pre post : List (Event W)} {w : W}
    (h : (system decrement maxAttempts).run s (pre ++ .get (some w) :: post) = some t) :
    t.returnValue = some w ∧
      (post = [] ∧ t.pc = .check ∨ ∃ b, post = [.completion b] ∧ t.pc = .returned) := by
  rw [System.run_append] at h
  obtain ⟨m, -, hm⟩ := Option.bind_eq_some_iff.mp h
  obtain ⟨m', hget, hpost⟩ := run_cons.mp hm
  cases hget with
  | found hs w =>
    rcases run_in_hand rfl rfl hpost with ⟨rfl, rfl⟩ | ⟨b, rfl, rfl⟩
    · exact ⟨rfl, .inl ⟨rfl, rfl⟩⟩
    · exact ⟨rfl, .inr ⟨b, rfl, rfl⟩⟩

/-! ### Null -/

/-- Null is returned only after the predicate was true. -/
theorem completion_of_null (ht : t.pc = .returned) (hnull : t.returnValue = none)
    (hs : s.pc ≠ .returned) (hv : s.returnValue = none)
    (h : (system decrement maxAttempts).run s as = some t) : .completion true ∈ as := by
  induction as generalizing s with
  | nil =>
    cases h
    exact absurd ht hs
  | cons e as ih =>
    obtain ⟨m, hm, hrun⟩ := run_cons.mp h
    cases hm with
    | complete => exact List.mem_cons_self ..
    | found _ w =>
      have hrun' : (system decrement maxAttempts).run s ([] ++ .get (some w) :: as) = some t := h
      have hfound := (run_found hrun').1
      rw [hnull] at hfound
      cases hfound
    | leave _ answer hcase =>
      have hanswer : answer = true := by simpa [hv] using hcase
      rw [hanswer]
      exact List.mem_cons_self ..
    | _ => exact List.mem_cons_of_mem _ (ih (by simp) (by simp [hv]) hrun)

/-! ### The number of attempts -/

theorem half_toNat : (half maxAttempts).toNat ≤ max 1 (maxAttempts.toNat / 2) := by
  unfold half
  split
  · exact le_max_left _ _
  · rw [BitVec.toNat_udiv]
    exact le_max_right _ _

/-- A call that yields has set its attempts for the next round. -/
def State.Halved (maxAttempts : Word) (s : State W) : Prop :=
  s.pc = .yield → s.numAttempts = half maxAttempts

theorem halved_of_effect (h : Effect decrement maxAttempts s e t) : t.Halved maxAttempts := by
  intro hpc
  cases h with
  | again => rfl
  | _ => cases hpc

theorem exists_gets (as : List (Event W)) : ∃ n ns, gets as = n :: ns := by
  induction as with
  | nil => exact ⟨0, [], rfl⟩
  | cons e as ih =>
    obtain ⟨n, ns, h⟩ := ih
    cases e with
    | completion answer => exact ⟨n, ns, h⟩
    | get answer => exact ⟨n + 1, ns, by simp [gets, h]⟩
    | yield => exact ⟨0, n :: ns, by simp [gets, h]⟩

/-- A round has its budget of attempts and every later one at most half of all. -/
theorem gets_le {n : ℕ} {ns : List ℕ} (hs : s.Halved maxAttempts) (hgets : gets as = n :: ns)
    (h : (getTask maxAttempts).run s as = some t) :
    n ≤ s.budget ∧ ∀ k ∈ ns, k ≤ max 1 (maxAttempts.toNat / 2) := by
  induction as generalizing s n ns with
  | nil =>
    cases hgets
    exact ⟨Nat.zero_le _, by simp⟩
  | cons e as ih =>
    obtain ⟨m, hm, hrun⟩ := run_cons.mp h
    obtain ⟨n', ns', hgets'⟩ := exists_gets as
    obtain ⟨hfirst, hlater⟩ := ih (halved_of_effect hm) hgets' hrun
    have hsame : gets (e :: as) = gets as → m.budget ≤ s.budget →
        n ≤ s.budget ∧ ∀ k ∈ ns, k ≤ max 1 (maxAttempts.toNat / 2) := by
      intro heq hle
      rw [heq, hgets', List.cons.injEq] at hgets
      obtain ⟨rfl, rfl⟩ := hgets
      exact ⟨hfirst.trans hle, hlater⟩
    have hget : gets (e :: as) = (gets as).modifyHead (· + 1) → m.budget < s.budget →
        n ≤ s.budget ∧ ∀ k ∈ ns, k ≤ max 1 (maxAttempts.toNat / 2) := by
      intro heq hlt
      rw [heq, hgets', List.modifyHead_cons, List.cons.injEq] at hgets
      obtain ⟨rfl, rfl⟩ := hgets
      exact ⟨by omega, hlater⟩
    cases hm with
    | complete => exact hsame rfl (Nat.zero_le _)
    | attempt hpc hn =>
      refine hsame rfl ?_
      simp only [State.budget, hpc]
      bv_omega
    | exhausted => exact hsame rfl (Nat.zero_le _)
    | missed hpc => exact hget rfl (by simp [State.budget, hpc])
    | found hpc => exact hget rfl (by simp [State.budget, hpc])
    | leave => exact hsame rfl (Nat.zero_le _)
    | again => exact hsame rfl (Nat.zero_le _)
    | yield hpc =>
      have hbudget : n' ≤ max 1 (maxAttempts.toNat / 2) := by
        refine hfirst.trans ?_
        change s.numAttempts.toNat ≤ _
        rw [hs hpc]
        exact half_toNat
      simp only [gets, hgets', List.cons.injEq] at hgets
      obtain ⟨rfl, rfl⟩ := hgets
      exact ⟨Nat.zero_le _, List.forall_mem_cons.mpr ⟨hbudget, hlater⟩⟩

/-! ### The wrap-around -/

/-- Two calls that differ at most in a counter that is about to be set anew. -/
structure Same (s t : State W) : Prop where
  pc : s.pc = t.pc
  returnValue : s.returnValue = t.returnValue
  numAttempts : s.pc = .check ∨ s.pc = .returned ∨ s.numAttempts = t.numAttempts

/-- What the decrement makes of 0 has no effect. -/
theorem run_same {decrement' : Word → Word} (hdec : ∀ n ≠ 0, decrement' n = decrement n)
    {s' : State W} (hsame : Same s s') (h : (system decrement maxAttempts).run s as = some t) :
    ∃ t', (system decrement' maxAttempts).run s' as = some t' ∧ Same t t' := by
  induction as generalizing s s' with
  | nil =>
    cases h
    exact ⟨s', rfl, hsame⟩
  | cons e as ih =>
    obtain ⟨m, hm, hrun⟩ := run_cons.mp h
    have hstep : ∃ m', Effect decrement' maxAttempts s' e m' ∧ Same m m' := by
      obtain ⟨hpc, hvalue, hnum⟩ := hsame
      cases hm with
      | complete hs => exact ⟨_, .complete (hpc ▸ hs), rfl, hvalue, .inl rfl⟩
      | attempt hs hn =>
        have heq : s.numAttempts = s'.numAttempts := by simpa [hs] using hnum
        refine ⟨_, .attempt (hpc ▸ hs) (heq ▸ hn), rfl, hvalue, .inr (.inr ?_)⟩
        change decrement s.numAttempts = decrement' s'.numAttempts
        rw [← heq, hdec _ hn]
      | exhausted hs hn =>
        have heq : s.numAttempts = s'.numAttempts := by simpa [hs] using hnum
        exact ⟨_, .exhausted (hpc ▸ hs) (heq ▸ hn), rfl, hvalue, .inl rfl⟩
      | missed hs =>
        have heq : s.numAttempts = s'.numAttempts := by simpa [hs] using hnum
        exact ⟨_, .missed (hpc ▸ hs), rfl, rfl, .inr (.inr heq)⟩
      | found hs w => exact ⟨_, .found (hpc ▸ hs) w, rfl, rfl, .inl rfl⟩
      | leave hs answer hcase =>
        exact ⟨_, .leave (hpc ▸ hs) answer (hvalue ▸ hcase), rfl, hvalue, .inr (.inl rfl)⟩
      | again hs hnull =>
        exact ⟨_, .again (hpc ▸ hs) (hvalue ▸ hnull), rfl, hvalue, .inr (.inr rfl)⟩
      | yield hs =>
        have heq : s.numAttempts = s'.numAttempts := by simpa [hs] using hnum
        exact ⟨_, .yield (hpc ▸ hs), rfl, hvalue, .inr (.inr heq)⟩
    obtain ⟨m', hm', hsame'⟩ := hstep
    obtain ⟨t', ht', htt'⟩ := ih hsame' hrun
    exact ⟨t', run_cons.mpr ⟨m', hm', ht'⟩, htt'⟩

/-! ### All together -/

/-- What holds of a call after the events `as`. -/
structure Answered (maxAttempts : Word) (as : List (Event W)) (s : State W) : Prop where
  /-- null only after the predicate was true, and with no task from `get` -/
  null : s.pc = .returned → s.returnValue = none →
    .completion true ∈ as ∧ ∀ w, .get (some w) ∉ as
  /-- a task from `get` is the last one asked for, and is returned after one more answer -/
  found : ∀ pre w post, as = pre ++ .get (some w) :: post → s.returnValue = some w ∧
    (post = [] ∧ s.pc = .check ∨ ∃ b, post = [.completion b] ∧ s.pc = .returned)
  /-- the first round asks at most `maxAttempts` times, every later one at most half as often -/
  rounds : ∃ n ns, gets as = n :: ns ∧ n ≤ maxAttempts.toNat ∧
    ∀ k ∈ ns, k ≤ max 1 (maxAttempts.toNat / 2)
  /-- whatever the decrement makes of 0, the call does the same -/
  wrap : ∀ decrement : Word → Word, (∀ n ≠ 0, decrement n = n - 1) →
    ∃ t, (system decrement maxAttempts).run (getTask maxAttempts).initial as = some t ∧
      t.pc = s.pc ∧ t.returnValue = s.returnValue
  /-- every answer to what it asks for lets the call go on -/
  goesOn : ∀ e, ((getTask maxAttempts).step s e).isSome ↔ s.pc.Asks e

theorem getTask_answered (maxAttempts : Word) {as : List (Event W)} {s : State W}
    (h : (getTask maxAttempts).run (getTask maxAttempts).initial as = some s) :
    Answered maxAttempts as s := by
  refine ⟨?_, ?_, ?_, ?_, ?_⟩
  · intro hpc hnull
    refine ⟨completion_of_null hpc hnull (by simp [getTask, system]) rfl h, ?_⟩
    intro w hmem
    obtain ⟨pre, post, rfl⟩ := List.append_of_mem hmem
    have hfound := (run_found h).1
    rw [hnull] at hfound
    cases hfound
  · rintro pre w post rfl
    exact run_found h
  · obtain ⟨n, ns, hgets⟩ := exists_gets as
    have hinitial : (getTask (W := W) maxAttempts).initial.Halved maxAttempts := by
      intro hpc
      cases hpc
    exact ⟨n, ns, hgets, gets_le hinitial hgets h⟩
  · intro decrement hdec
    obtain ⟨t, ht, hsame⟩ := run_same hdec ⟨rfl, rfl, .inr (.inr rfl)⟩ h
    exact ⟨t, ht, hsame.pc.symm, hsame.returnValue.symm⟩
  · intro e
    change (step (· - 1) maxAttempts s e).isSome ↔ _
    exact step_isSome_iff

/-- One attempt that fails, a round of one more, and a task although the predicate has become
true. -/
def secondRound : List (Event ℕ) :=
  [.completion false, .get none, .completion false, .completion false, .yield,
    .completion false, .get (some 7), .completion true]

theorem getTask_answered_secondRound :
    Answered 1 secondRound ⟨.returned, 0, some 7⟩ ∧ gets secondRound = [1, 1] :=
  ⟨getTask_answered 1 (by decide), by decide⟩

/-! ### The threads of the task manager -/

section Threads

open TaskManager

variable {π : Type} {cfg : Config π} {p : Point π} {n : Word} {c : Ctl π}

/-- `progress_barrier` calls `get` itself. -/
def CallsGetTask : Point π → Prop
  | .barrier _ _ _ => False
  | _ => True

/-- A thread in a call of `get_task`, or just after it. -/
inductive Views (p : Point π) : Ctl π → State Handle → Prop
  | test (n : Word) (pc : PFunc.Event.EventBase.TestPc) :
      Views p (.seeking p n (.test .loop pc)) ⟨.test, n, none⟩
  | get (n : Word) (k : ℕ) : Views p (.seeking p n (.visit k)) ⟨.get, n, none⟩
  | check (n : Word) (pc : PFunc.Event.EventBase.TestPc) :
      Views p (.seeking p n (.test .exit pc)) ⟨.check, n, none⟩
  | took (n : Word) (h : Handle) (pc : PFunc.Event.EventBase.TestPc) :
      Views p (.took p h pc) ⟨.check, n, some h⟩
  | starting (n : Word) (h : Handle) : Views p (.starting p h) ⟨.returned, n, some h⟩
  | leaving (n : Word) (h : Handle) : Views p (.leaving h) ⟨.returned, n, none⟩

theorem views_test (site : Site) (pc : PFunc.Event.EventBase.TestPc) :
    Views p (.seeking p n (.test site pc))
      ⟨match site with | .loop => .test | .exit => .check, n, none⟩ := by
  cases site
  · exact .test n pc
  · exact .check n pc

theorem tested_run {site : Site} {b : Bool} (h : tested cfg p n site b = some c) :
    ∃ as g, (getTask cfg.taskMaxAttempts).run
      ⟨match site with | .loop => .test | .exit => .check, n, none⟩ as = some g ∧ Views p c g := by
  cases site with
  | loop =>
    refine ⟨[.completion b], ?_⟩
    cases b with
    | true =>
      cases h
      exact ⟨_, rfl, .check n _⟩
    | false =>
      simp only [tested] at h
      split at h
      next hn =>
        cases h
        exact ⟨_, run_cons.mpr ⟨_, .attempt rfl (by bv_omega), rfl⟩, .get _ 0⟩
      next hn =>
        cases h
        exact ⟨_, run_cons.mpr ⟨_, .exhausted rfl (by bv_omega), rfl⟩, .check _ _⟩
  | exit =>
    cases b with
    | true =>
      refine ⟨[.completion true], ?_⟩
      cases p with
      | wait current h' =>
        cases h
        exact ⟨_, rfl, .leaving n h'⟩
      | work => cases h
      | barrier => cases h
    | false =>
      cases h
      exact ⟨[.completion false, .yield], _, rfl, .test _ _⟩

theorem seek_test_run {s s' : TaskManager.State π} {t top : ℕ} {site : Site}
    {pc : PFunc.Event.EventBase.TestPc} (hp : CallsGetTask p)
    (h : seek cfg s t p n top (.test site pc) = some s') : ∃ as g',
      (getTask cfg.taskMaxAttempts).run
        ⟨match site with | .loop => .test | .exit => .check, n, none⟩ as = some g' ∧
        Views p (s'.thread t).ctl g' := by
  cases p with
  | barrier => exact hp.elim
  | work =>
    obtain ⟨c, hc, rfl⟩ := Option.map_eq_some_iff.mp h
    obtain ⟨as, g, hrun, hview⟩ := tested_run hc
    exact ⟨as, g, hrun, by simpa [State.goto, State.setThread] using hview⟩
  | wait current h' =>
    simp only [seek] at h
    split at h
    next pc' hr =>
      cases h
      refine ⟨[], _, rfl, ?_⟩
      simpa [State.goto, State.setThread] using views_test site pc'
    next b hr =>
      obtain ⟨c, hc, rfl⟩ := Option.map_eq_some_iff.mp h
      obtain ⟨as, g, hrun, hview⟩ := tested_run hc
      exact ⟨as, g, hrun, by simpa [State.goto, State.setThread] using hview⟩

theorem seek_visit_run {s s' : TaskManager.State π} {t top k : ℕ} (hp : CallsGetTask p)
    (h : seek cfg s t p n top (.visit k) = some s') : ∃ as g',
      (getTask cfg.taskMaxAttempts).run ⟨.get, n, none⟩ as = some g' ∧
        Views p (s'.thread t).ctl g' := by
  simp only [seek] at h
  split at h
  next =>
    split at h
    next =>
      split at h
      next r hr =>
        cases h
        refine ⟨[.get (some r.1)], _, rfl, ?_⟩
        cases p with
        | barrier => exact hp.elim
        | work => simpa [State.take, State.goto, State.setThread, found] using Views.took n r.1 _
        | wait => simpa [State.take, State.goto, State.setThread, found] using Views.took n r.1 _
      next =>
        cases h
        exact ⟨[], _, rfl, by simpa [State.goto, State.setThread] using Views.get n (k + 1)⟩
    next => cases h
  next =>
    cases h
    refine ⟨[.get none], _, rfl, ?_⟩
    cases p with
    | barrier => exact hp.elim
    | work => simpa [State.goto, State.setThread, missed] using Views.test n _
    | wait => simpa [State.goto, State.setThread, missed] using Views.test n _

/-- Each step of a thread in `get_task` is one of the events of a call, or lies within one. -/
theorem tick_run {s s' : TaskManager.State π} {t top : ℕ} {g : State Handle}
    (hp : CallsGetTask p) (hv : Views p (s.thread t).ctl g) (hg : g.pc ≠ .returned)
    (h : tick cfg s t top = some s') : ∃ as g',
      (getTask cfg.taskMaxAttempts).run g as = some g' ∧ Views p (s'.thread t).ctl g' := by
  generalize hc : (s.thread t).ctl = c at hv
  cases hv with
  | test n pc =>
    rw [tick, hc] at h
    exact seek_test_run hp h
  | check n pc =>
    rw [tick, hc] at h
    exact seek_test_run hp h
  | get n k =>
    rw [tick, hc] at h
    exact seek_visit_run hp h
  | took n h' pc =>
    simp only [tick, hc] at h
    have hstart : ∀ b, (getTask cfg.taskMaxAttempts).run ⟨.check, n, some h'⟩ [.completion b] =
        some ⟨.returned, n, some h'⟩ := by
      intro b
      cases b <;> rfl
    cases p with
    | barrier => exact hp.elim
    | work =>
      cases h
      exact ⟨_, _, hstart false, by simpa [State.goto, State.setThread] using Views.starting n h'⟩
    | wait current h'' =>
      dsimp only at h
      split at h
      next pc' hr =>
        cases h
        exact ⟨[], _, rfl, by simpa [State.goto, State.setThread] using Views.took n h' pc'⟩
      next b hr =>
        cases h
        exact ⟨_, _, hstart b, by simpa [State.goto, State.setThread] using Views.starting n h'⟩
  | starting => exact absurd rfl hg
  | leaving => exact absurd rfl hg

end Threads

end PFunc.GetTask
