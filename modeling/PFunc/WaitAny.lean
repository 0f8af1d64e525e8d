import PFunc.TestAll

/-!
# Waiting for any task of a range

`pfunc::wait_any` calls `test_all` until it returns true, and `test_all` returns what the last
test of a range returns and writes no entry but the first. The C function returns at once. The
rounds are generic in the test, of which only the following is used here: it tells whether the
task is complete, no test makes a task incomplete again, and an exception that a task holds ends
the call.
-/

namespace PFunc.WaitAny

open Event Exceptions TestAll

/-! ### Rounds of tests -/

section Rounds

variable {τ σ ε : Type} (test : τ → σ → σ × Except ε Bool) (tasks : List τ)

/-- One round of the loop of `pfunc::wait_any`: the call goes on, or it ends. -/
def round (s : σ) (completionArr : ℕ → ℤ) : (σ × (ℕ → ℤ)) ⊕ Outcome σ ε Unit :=
  let o := testAll test tasks s completionArr
  match o.result with
  | .ok false => .inl (o.state, o.completionArr)
  | .ok true => .inr ⟨o.state, o.completionArr, .ok ()⟩
  | .error e => .inr ⟨o.state, o.completionArr, .error e⟩

/-- What has become of a call of `pfunc::wait_any` after that many rounds. -/
def waitAny (s : σ) (completionArr : ℕ → ℤ) : ℕ → (σ × (ℕ → ℤ)) ⊕ Outcome σ ε Unit
  | 0 => .inl (s, completionArr)
  | n + 1 =>
    match waitAny s completionArr n with
    | .inl r => round test tasks r.1 r.2
    | .inr o => .inr o

/-- `pfunc_<sched>_wait_any` -/
def cWaitAny (s : σ) (completed : ℕ → ℤ) : Outcome σ ε Unit := ⟨s, completed, .ok ()⟩

/-- What a test tells of the tasks, if `complete` and `throws` say which of them are complete and
which hold an exception. -/
structure Polls (complete throws : σ → τ → Prop) : Prop where
  result : ∀ h s s' b, test h s = (s', .ok b) → (b = true ↔ complete s' h)
  complete : ∀ h s h', complete s h' → complete (test h s).1 h'
  error : ∀ h s, throws s h → (test h s).2.isOk = false
  throws : ∀ h s h', throws s h' → throws (test h s).1 h'

/-- The array marks a complete task of the range and no other one. -/
structure Marks (complete : σ → τ → Prop) (tasks : List τ) (s : σ) (completionArr : ℕ → ℤ) :
    Prop where
  some : ∃ i, ∃ h ∈ tasks[i]?, completionArr i ≠ 0 ∧ complete s h
  only : ∀ i, ∀ h ∈ tasks[i]?, completionArr i ≠ 0 → complete s h

/-- The call waits for any task: when it returns, one is complete and the array is right; and a
round that begins when one is complete ends the call. -/
structure WaitsForAny (complete : σ → τ → Prop) (tasks : List τ)
    (after : ℕ → (σ × (ℕ → ℤ)) ⊕ Outcome σ ε Unit) : Prop where
  returned : ∀ n o, after n = .inr o → o.result = .ok () →
    (∃ h ∈ tasks, complete o.state h) ∧ Marks complete tasks o.state o.completionArr
  any : ∀ n r, after n = .inl r → (∃ h ∈ tasks, complete r.1 h) → ∃ o, after (n + 1) = .inr o

variable {test tasks} {complete throws : σ → τ → Prop} {s : σ} {completionArr : ℕ → ℤ}

theorem Marks.exists_complete (h : Marks complete tasks s completionArr) :
    ∃ h ∈ tasks, complete s h := by
  obtain ⟨i, h, hi, -, hc⟩ := h.some
  exact ⟨h, List.mem_of_getElem? hi, hc⟩

theorem Marks.mono (h : Marks complete tasks s completionArr) {s' : σ}
    (hkeep : ∀ h, complete s h → complete s' h) : Marks complete tasks s' completionArr := by
  obtain ⟨⟨i, task, hi, hmark, hc⟩, honly⟩ := h
  exact ⟨⟨i, task, hi, hmark, hkeep task hc⟩, fun j task' hj hm => hkeep task' (honly j task' hj hm)⟩

namespace Polls

theorem loop_complete (hp : Polls test complete throws) {i : ℕ} {b : Bool} {h : τ}
    (hc : complete s h) : complete (testAllLoop test i b tasks s completionArr).state h := by
  induction tasks generalizing s completionArr b with
  | nil => exact hc
  | cons task tasks ih =>
    have hnext := hp.complete task s h hc
    rcases ht : test task s with ⟨s', e | b'⟩
    · rw [ht] at hnext
      simpa [testAllLoop, ht] using hnext
    · rw [ht] at hnext
      simpa only [testAllLoop, ht] using ih hnext

/-- A loop that returns has tested the last task last. -/
theorem loop_result (hp : Polls test complete throws) (hne : tasks ≠ []) {i : ℕ} {b b' : Bool}
    (hr : (testAllLoop test i b tasks s completionArr).result = .ok b') :
    (b' = true ↔
      complete (testAllLoop test i b tasks s completionArr).state (tasks.getLast hne)) ∧
      (testAllLoop test i b tasks s completionArr).completionArr i = if b' then 1 else 0 := by
  induction tasks generalizing s completionArr b with
  | nil => exact absurd rfl hne
  | cons task tasks ih =>
    rcases ht : test task s with ⟨s', e | c⟩
    · simp [testAllLoop, ht] at hr
    · simp only [testAllLoop, ht] at hr ⊢
      cases tasks with
      | nil =>
        simp only [testAllLoop, Except.ok.injEq] at hr
        subst hr
        exact ⟨hp.result _ _ _ _ ht, by simp [testAllLoop]⟩
      | cons task' tasks => exact ih (by simp) hr

theorem loop_throws (hp : Polls test complete throws) {i : ℕ} {b : Bool} {h : τ} (hh : h ∈ tasks)
    (ht : throws s h) : (testAllLoop test i b tasks s completionArr).result.isOk = false := by
  induction tasks generalizing s completionArr b with
  | nil => cases hh
  | cons task tasks ih =>
    rcases hr : test task s with ⟨s', e | b'⟩
    · simp [testAllLoop, hr, Except.isOk, Except.toBool]
    · simp only [testAllLoop, hr]
      rcases List.mem_cons.mp hh with rfl | hh
      · have herror := hp.error h s ht
        rw [hr] at herror
        cases herror
      · have hnext := hp.throws task s h ht
        rw [hr] at hnext
        exact ih hh hnext

/-- A round that goes on has found the last task incomplete. -/
theorem round_inl (hp : Polls test complete throws) (hne : tasks ≠ []) {r : σ × (ℕ → ℤ)}
    (hr : round test tasks s completionArr = .inl r) :
    (∀ h, complete s h → complete r.1 h) ∧ (∀ j ≠ 0, r.2 j = completionArr j) ∧
      ¬complete r.1 (tasks.getLast hne) := by
  unfold round at hr
  dsimp only at hr
  split at hr
  next hres =>
    cases hr
    refine ⟨fun h hc => hp.loop_complete hc, fun j hj => testAllLoop_other hj, ?_⟩
    intro hc
    cases (hp.loop_result hne hres).1.mpr hc
  next => cases hr
  next => cases hr

/-- A round that returns has found it complete, and writes what it has found to the first entry. -/
theorem round_inr (hp : Polls test complete throws) (hne : tasks ≠ []) {o : Outcome σ ε Unit}
    (hr : round test tasks s completionArr = .inr o) (hok : o.result = .ok ()) :
    (∀ h, complete s h → complete o.state h) ∧
      (∀ j ≠ 0, o.completionArr j = completionArr j) ∧
      complete o.state (tasks.getLast hne) ∧ o.completionArr 0 = 1 := by
  unfold round at hr
  dsimp only at hr
  split at hr
  next => cases hr
  next hres =>
    cases hr
    have hlast := hp.loop_result hne hres
    exact ⟨fun h hc => hp.loop_complete hc, fun j hj => testAllLoop_other hj,
      hlast.1.mp rfl, hlast.2⟩
  next =>
    cases hr
    cases hok

theorem exists_round_inr (hp : Polls test complete throws) (hne : tasks ≠ [])
    (completionArr : ℕ → ℤ) (hc : complete s (tasks.getLast hne)) :
    ∃ o, round test tasks s completionArr = .inr o := by
  cases hr : round test tasks s completionArr with
  | inl r =>
    obtain ⟨hkeep, -, hnot⟩ := hp.round_inl hne hr
    exact absurd (hkeep _ hc) hnot
  | inr o => exact ⟨o, rfl⟩

theorem round_throws (hp : Polls test complete throws) (completionArr : ℕ → ℤ) {h : τ}
    (hh : h ∈ tasks) (ht : throws s h) :
    ∃ o, round test tasks s completionArr = .inr o ∧ o.result.isOk = false := by
  have hres : (testAll test tasks s completionArr).result.isOk = false := hp.loop_throws hh ht
  unfold round
  dsimp only
  cases hr : (testAll test tasks s completionArr).result with
  | ok b =>
    rw [hr] at hres
    cases hres
  | error e => exact ⟨_, rfl, rfl⟩

/-! ### Runs of rounds -/

theorem waitAny_inl (hp : Polls test complete throws) (hne : tasks ≠ []) {n : ℕ}
    {r : σ × (ℕ → ℤ)} (hr : waitAny test tasks s completionArr n = .inl r) :
    (∀ h, complete s h → complete r.1 h) ∧ ∀ j ≠ 0, r.2 j = completionArr j := by
  induction n generalizing r with
  | zero =>
    cases hr
    exact ⟨fun _ => id, fun _ _ => rfl⟩
  | succ n ih =>
    unfold waitAny at hr
    split at hr
    next q hq =>
      obtain ⟨hkeep, hentry⟩ := ih hq
      obtain ⟨hkeep', hentry', -⟩ := hp.round_inl hne hr
      exact ⟨fun h hc => hkeep' h (hkeep h hc), fun j hj => (hentry' j hj).trans (hentry j hj)⟩
    next => cases hr

theorem waitAny_inr (hp : Polls test complete throws) (hne : tasks ≠ []) {n : ℕ}
    {o : Outcome σ ε Unit} (hr : waitAny test tasks s completionArr n = .inr o)
    (hok : o.result = .ok ()) :
    (∀ h, complete s h → complete o.state h) ∧
      (∀ j ≠ 0, o.completionArr j = completionArr j) ∧
      complete o.state (tasks.getLast hne) ∧ o.completionArr 0 = 1 := by
  induction n with
  | zero => cases hr
  | succ n ih =>
    unfold waitAny at hr
    split at hr
    next q hq =>
      obtain ⟨hkeep, hentry⟩ := hp.waitAny_inl hne hq
      obtain ⟨hkeep', hentry', hlast⟩ := hp.round_inr hne hr hok
      exact ⟨fun h hc => hkeep' h (hkeep h hc), fun j hj => (hentry' j hj).trans (hentry j hj),
        hlast⟩
    next =>
      cases hr
      exact ih ‹_›

end Polls

/-- A call that its first round ends. -/
theorem waitAny_of_round {o : Outcome σ ε Unit} (hr : round test tasks s completionArr = .inr o)
    (n : ℕ) : waitAny test tasks s completionArr (n + 1) = .inr o := by
  induction n with
  | zero => simpa [waitAny] using hr
  | succ n ih => rw [waitAny, ih]

theorem waitsForAny_of_round {o : Outcome σ ε Unit}
    (hr : round test tasks s completionArr = .inr o)
    (hmarks : o.result = .ok () → Marks complete tasks o.state o.completionArr) :
    WaitsForAny complete tasks (waitAny test tasks s completionArr) where
  returned := by
    intro n o' ho hok
    cases n with
    | zero => cases ho
    | succ n =>
      rw [waitAny_of_round hr n] at ho
      cases ho
      exact ⟨(hmarks hok).exists_complete, hmarks hok⟩
  any := by
    intro n r hn _
    cases n with
    | zero => exact ⟨o, waitAny_of_round hr 0⟩
    | succ n =>
      rw [waitAny_of_round hr n] at hn
      cases hn

/-- What a call needs to find: a task that holds an exception, or one task only, or the last task
complete and with it every task whose entry is or will be marked. -/
def Ready (complete throws : σ → τ → Prop) (tasks : List τ) (s : σ) (completionArr : ℕ → ℤ) :
    Prop :=
  (∃ h ∈ tasks, throws s h) ∨ (∀ h ∈ tasks, ∀ h' ∈ tasks, h = h') ∨
    (∀ h ∈ tasks.getLast?, complete s h) ∧
      ∀ i, ∀ h ∈ tasks[i]?, i = 0 ∨ completionArr i ≠ 0 → complete s h

theorem Ready.waitsForAny (hp : Polls test complete throws) (hne : tasks ≠ [])
    (hready : Ready complete throws tasks s completionArr) :
    WaitsForAny complete tasks (waitAny test tasks s completionArr) := by
  have hlast : tasks.getLast hne ∈ tasks := List.getLast_mem hne
  obtain ⟨first, hfirst⟩ : ∃ h, tasks[0]? = some h :=
    ⟨_, List.getElem?_eq_getElem (List.length_pos_iff.mpr hne)⟩
  rcases hready with ⟨h, hh, hthrows⟩ | hsame | ⟨hcomplete, hmarked⟩
  · obtain ⟨o, hround, hnot⟩ := hp.round_throws completionArr hh hthrows
    refine waitsForAny_of_round hround fun hok => ?_
    rw [hok] at hnot
    cases hnot
  · have hall : ∀ {s' : σ} {i : ℕ} {h h' : τ}, complete s' h → h ∈ tasks → h' ∈ tasks[i]? →
        complete s' h' :=
      fun hc hh hi => hsame _ hh _ (List.mem_of_getElem? hi) ▸ hc
    refine ⟨?_, ?_⟩
    · intro n o ho hok
      obtain ⟨-, -, hc, hentry⟩ := hp.waitAny_inr hne ho hok
      refine ⟨⟨_, hlast, hc⟩, ⟨0, first, hfirst, ?_, hall hc hlast hfirst⟩,
        fun i h hi _ => hall hc hlast hi⟩
      rw [hentry]
      exact one_ne_zero
    · rintro n r hn ⟨h, hh, hc⟩
      have hc' : complete r.1 (tasks.getLast hne) := hsame h hh _ hlast ▸ hc
      obtain ⟨o, ho⟩ := hp.exists_round_inr hne r.2 hc'
      exact ⟨o, by rw [waitAny, hn]; exact ho⟩
  · have hc := hcomplete _ (List.getLast?_eq_some_getLast hne)
    obtain ⟨o, hround⟩ := hp.exists_round_inr hne completionArr hc
    refine waitsForAny_of_round hround fun hok => ?_
    obtain ⟨hkeep, hentry, -, hzero⟩ := hp.round_inr hne hround hok
    refine ⟨⟨0, first, hfirst, ?_, hkeep _ (hmarked 0 first hfirst (.inl rfl))⟩, ?_⟩
    · rw [hzero]
      exact one_ne_zero
    · intro i h hi hmark
      refine hkeep _ (hmarked i h hi ?_)
      by_cases hi0 : i = 0
      · exact .inl hi0
      · exact .inr (hentry i hi0 ▸ hmark)

end Rounds

/-! ### Tasks that others run and test -/

variable {π : Type}

/-- The event of the task has been completed. -/
def Complete (s : Tasks π) (h : Handle) : Prop :=
  (s.task h).completion.eventState ≠ activeIncomplete

instance (s : Tasks π) (h : Handle) : Decidable (Complete s h) := inferInstanceAs (Decidable (_ ≠ _))

/-- What happens between two tests of a call. -/
inductive Move where
  | notify (h : Handle)
  /-- the functor of a task throws, and `run` stores the exception -/
  | throw (h : Handle) (error : Exception)
  /-- another thread tests a task -/
  | test (h : Handle)
  /-- other tasks change a group -/
  | group (g : GroupId) (grp : Group)

/-- A task that holds an exception is not completed, and one that is complete does not run. -/
def Move.apply (s : Tasks π) : Move → Tasks π
  | .notify h =>
    if s.except h = none ∧ ¬Complete s h then
      { s with task := Function.update s.task h (s.task h).notify }
    else s
  | .throw h error =>
    if Complete s h then s else { s with except := Function.update s.except h (some error) }
  | .test h => (testTask h s).1
  | .group g grp => { s with group := Function.update s.group g grp }

/-- A test, after the moves of the schedule that precede it. -/
def scheduled (moves : ℕ → List Move) (h : Handle) (s : Tasks π × ℕ) :
    (Tasks π × ℕ) × Except Exception Bool :=
  let r := testTask h ((moves s.2).foldl Move.apply s.1)
  ((r.1, s.2 + 1), r.2)

/-! ### One test -/

theorem testAlone_snd (e : EventBase) :
    e.testAlone.2 = decide (e.eventState ≠ activeIncomplete) := by
  unfold EventBase.testAlone
  split
  next h => simp [h]
  next h => split <;> simp [h]

theorem testAlone_incomplete_iff (e : EventBase) :
    e.testAlone.1.eventState = activeIncomplete ↔ e.eventState = activeIncomplete := by
  have hne : inactive ≠ activeIncomplete := inactive_ne_incomplete
  unfold EventBase.testAlone
  split
  next => rfl
  next h =>
    split
    next => rfl
    next => dsimp only; split <;> simp [h, hne]

variable {s : Tasks π} {h h' : Handle}

theorem testTask_of_none (he : s.except h = none) :
    (testTask h s).2 = .ok (decide (Complete s h)) ∧
      (testTask h s).1.task =
        Function.update s.task h
          ((s.task h).setCompletion (s.task h).completion.testAlone.1) := by
  have hr : (if (s.task h).attr.isNested then (s.task h).testingCompl.testAlone
      else (s.task h).waitingCompl.testAlone) = (s.task h).completion.testAlone := by
    unfold Task.completion
    split <;> rfl
  simp only [testTask, he, hr]
  exact ⟨by rw [testAlone_snd]; rfl, rfl⟩

theorem testTask_of_some {e : Exception} (he : s.except h = some e) :
    testTask h s = (s, .error e) := by
  simp only [testTask, he]

@[simp] theorem testTask_except : (testTask h s).1.except = s.except := by
  unfold testTask
  split <;> rfl

@[simp] theorem testTask_complete_iff : Complete (testTask h s).1 h' ↔ Complete s h' := by
  cases he : s.except h with
  | some e => rw [testTask_of_some he]
  | none =>
    unfold Complete
    rw [(testTask_of_none he).2]
    by_cases hh : h' = h
    · subst hh
      simp [testAlone_incomplete_iff]
    · simp [hh]

/-! ### Moves of others -/

theorem complete_apply (m : Move) (hc : Complete s h) : Complete (m.apply s) h := by
  cases m with
  | notify g =>
    simp only [Move.apply]
    split
    next =>
      unfold Complete
      by_cases hg : h = g
      · subst hg
        simp [complete_ne_incomplete]
      · dsimp only
        rw [Function.update_of_ne hg]
        exact hc
    next => exact hc
  | throw g error =>
    simp only [Move.apply]
    split <;> exact hc
  | test g => exact testTask_complete_iff.mpr hc
  | group g grp => exact hc

theorem isSome_apply (m : Move) (he : (s.except h).isSome) : ((m.apply s).except h).isSome := by
  cases m with
  | notify g =>
    simp only [Move.apply]
    split <;> exact he
  | throw g error =>
    simp only [Move.apply]
    split
    next => exact he
    next =>
      by_cases hg : h = g
      · simp [hg]
      · simpa [hg] using he
  | test g => simpa [Move.apply] using he
  | group g grp => exact he

theorem complete_foldl (ms : List Move) (hc : Complete s h) :
    Complete (ms.foldl Move.apply s) h := by
  induction ms generalizing s with
  | nil => exact hc
  | cons m ms ih => exact ih (complete_apply m hc)

theorem isSome_foldl (ms : List Move) (he : (s.except h).isSome) :
    ((ms.foldl Move.apply s).except h).isSome := by
  induction ms generalizing s with
  | nil => exact he
  | cons m ms ih => exact ih (isSome_apply m he)

/-- Whatever others do, the tests of a call tell of the tasks what the rounds need. -/
theorem polls (moves : ℕ → List Move) :
    Polls (scheduled (π := π) moves) (fun s h => Complete s.1 h)
      (fun s h => (s.1.except h).isSome) where
  result := by
    rintro h ⟨s, n⟩ ⟨s', n'⟩ b ht
    obtain ⟨hs, hb⟩ := Prod.mk.inj ht
    obtain ⟨rfl, -⟩ := Prod.mk.inj hs
    cases he : ((moves n).foldl Move.apply s).except h with
    | some e =>
      simp only [testTask_of_some he] at hb
      cases hb
    | none =>
      rw [(testTask_of_none he).1] at hb
      cases hb
      simp
  complete := fun _ s _ hc => testTask_complete_iff.mpr (complete_foldl (moves s.2) hc)
  error := by
    rintro h ⟨s, n⟩ he
    obtain ⟨e, he'⟩ := Option.isSome_iff_exists.mp (isSome_foldl (moves n) he)
    simp only [scheduled, testTask_of_some he']
    rfl
  throws := by
    rintro h ⟨s, n⟩ h' he
    simpa [scheduled] using isSome_foldl (moves n) he

/-! ### Calls that others leave alone -/

/-- Others move once, before the first test. -/
def once (ms : List Move) (n : ℕ) : List Move := if n = 0 then ms else []

variable {tasks : List Handle} {ms : List Move}

theorem loop_alone (ms : List Move) (he : ∀ h ∈ tasks, s.except h = none) (i n : ℕ) (b : Bool)
    (completionArr : ℕ → ℤ) : ∃ s' n' b',
      (testAllLoop (scheduled (once ms)) i b tasks (s, n + 1) completionArr).state =
          (s', n' + 1) ∧
        (testAllLoop (scheduled (once ms)) i b tasks (s, n + 1) completionArr).result = .ok b' ∧
        (∀ h, Complete s' h ↔ Complete s h) ∧ s'.except = s.except := by
  induction tasks generalizing s n b completionArr with
  | nil => exact ⟨s, n, b, rfl, rfl, fun _ => .rfl, rfl⟩
  | cons task tasks ih =>
    have ht : scheduled (once ms) task (s, n + 1) =
        (((testTask task s).1, n + 2), .ok (decide (Complete s task))) := by
      rw [scheduled, ← (testTask_of_none (he task (by simp))).1]
      rfl
    simp only [testAllLoop, ht]
    obtain ⟨s', n', b', hstate, hres, hcomplete, hexcept⟩ :=
      ih (s := (testTask task s).1)
        (fun h hh => by simpa using he h (List.mem_cons_of_mem task hh)) (n + 1) _ _
    exact ⟨s', n', b', hstate, hres, fun h => (hcomplete h).trans testTask_complete_iff,
      hexcept.trans testTask_except⟩

theorem testAll_alone (ms : List Move) (n : ℕ) (hne : tasks ≠ [])
    (he : ∀ h ∈ tasks, ((once ms n).foldl Move.apply s).except h = none)
    (completionArr : ℕ → ℤ) : ∃ s' n' b,
      (testAll (scheduled (once ms)) tasks (s, n) completionArr).state = (s', n' + 1) ∧
        (testAll (scheduled (once ms)) tasks (s, n) completionArr).result = .ok b ∧
        (∀ h, Complete s' h ↔ Complete ((once ms n).foldl Move.apply s) h) ∧
        s'.except = ((once ms n).foldl Move.apply s).except := by
  cases tasks with
  | nil => exact absurd rfl hne
  | cons task tasks =>
    generalize hs₁ : (once ms n).foldl Move.apply s = s₁ at he ⊢
    have ht : scheduled (once ms) task (s, n) =
        (((testTask task s₁).1, n + 1), .ok (decide (Complete s₁ task))) := by
      rw [← (testTask_of_none (he task (by simp))).1, ← hs₁]
      rfl
    obtain ⟨s', n', b', hstate, hres, hcomplete, hexcept⟩ :=
      loop_alone (s := (testTask task s₁).1) ms
        (fun h hh => by simpa using he h (List.mem_cons_of_mem task hh)) 0 n
        (decide (Complete s₁ task))
        (Function.update completionArr 0 (if decide (Complete s₁ task) then 1 else 0))
    refine ⟨s', n', b', ?_, ?_, fun h => (hcomplete h).trans testTask_complete_iff,
      hexcept.trans testTask_except⟩
    · simpa only [testAll, testAllLoop, ht] using hstate
    · simpa only [testAll, testAllLoop, ht] using hres

/-- A round that finds the last task incomplete goes on. -/
theorem round_alone_inl (ms : List Move) (n : ℕ) (hne : tasks ≠ [])
    (he : ∀ h ∈ tasks, ((once ms n).foldl Move.apply s).except h = none)
    (hlast : ¬Complete ((once ms n).foldl Move.apply s) (tasks.getLast hne))
    (completionArr : ℕ → ℤ) : ∃ s' n' completionArr',
      round (scheduled (once ms)) tasks (s, n) completionArr =
          .inl ((s', n' + 1), completionArr') ∧
        (∀ h, Complete s' h ↔ Complete ((once ms n).foldl Move.apply s) h) ∧
        s'.except = ((once ms n).foldl Move.apply s).except := by
  obtain ⟨s', n', b, hstate, hres, hcomplete, hexcept⟩ := testAll_alone ms n hne he completionArr
  have hb : b = false := by
    rw [← Bool.not_eq_true, ((polls (once ms)).loop_result hne hres).1]
    change ¬Complete (testAll (scheduled (once ms)) tasks (s, n) completionArr).state.1 _
    rw [hstate, hcomplete]
    exact hlast
  subst hb
  refine ⟨s', n', (testAll (scheduled (once ms)) tasks (s, n) completionArr).completionArr, ?_,
    hcomplete, hexcept⟩
  simp only [round, hres, hstate]

/-- A round that finds it complete returns. -/
theorem round_alone_inr (ms : List Move) (n : ℕ) (hne : tasks ≠ [])
    (he : ∀ h ∈ tasks, ((once ms n).foldl Move.apply s).except h = none)
    (hlast : Complete ((once ms n).foldl Move.apply s) (tasks.getLast hne))
    (completionArr : ℕ → ℤ) : ∃ o,
      round (scheduled (once ms)) tasks (s, n) completionArr = .inr o ∧ o.result = .ok () ∧
        ∀ h, Complete o.state.1 h ↔ Complete ((once ms n).foldl Move.apply s) h := by
  obtain ⟨s', n', b, hstate, hres, hcomplete, -⟩ := testAll_alone ms n hne he completionArr
  have hb : b = true := by
    rw [((polls (once ms)).loop_result hne hres).1]
    change Complete (testAll (scheduled (once ms)) tasks (s, n) completionArr).state.1 _
    rw [hstate, hcomplete]
    exact hlast
  subst hb
  refine ⟨⟨(s', n' + 1), (testAll (scheduled (once ms)) tasks (s, n) completionArr).completionArr,
    .ok ()⟩, ?_, rfl, hcomplete⟩
  simp only [round, hres, hstate]

@[simp] theorem once_succ (ms : List Move) (n : ℕ) : once ms (n + 1) = [] := rfl

/-- When a task completes other than the last one, the call goes on for ever. -/
theorem last_complete (hne : tasks ≠ []) (he : ∀ h ∈ tasks, s.except h = none) {j : Handle}
    (hj : j ∈ tasks) (hjlast : j ≠ tasks.getLast hne) {completionArr : ℕ → ℤ}
    (hwaits : ∀ moves, WaitsForAny (fun s h => Complete s.1 h) tasks
      (waitAny (scheduled moves) tasks (s, 0) completionArr)) :
    Complete s (tasks.getLast hne) := by
  by_contra hlast
  obtain ⟨s₁, hs₁⟩ : ∃ s₁, (Move.notify j).apply s = s₁ := ⟨_, rfl⟩
  have hone : (once [.notify j] 0).foldl Move.apply s = s₁ := hs₁
  have hexcept : s₁.except = s.except := by
    rw [← hs₁, Move.apply]
    split <;> rfl
  have hjcomplete : Complete s₁ j := by
    rw [← hs₁, Move.apply]
    by_cases hc : Complete s j
    · rwa [if_neg (fun hand => hand.2 hc)]
    · rw [if_pos ⟨he j hj, hc⟩]
      simp [Complete, complete_ne_incomplete]
  have hlast₁ : ¬Complete s₁ (tasks.getLast hne) := by
    rw [← hs₁, Move.apply]
    split
    next => simpa [Complete, Ne.symm hjlast] using hlast
    next => exact hlast
  -- the first round goes on, and so does the second, which begins with the other task complete
  obtain ⟨s', n', completionArr', hround, hcomplete, hexcept'⟩ :=
    round_alone_inl (s := s) [.notify j] 0 hne
      (by simpa only [hone, hexcept] using he) (by simpa only [hone] using hlast₁) completionArr
  rw [hone] at hcomplete hexcept'
  have hwait : waitAny (scheduled (once [.notify j])) tasks (s, 0) completionArr 1 =
      .inl ((s', n' + 1), completionArr') := hround
  obtain ⟨o, ho⟩ := (hwaits (once [.notify j])).any 1 _ hwait ⟨j, hj, (hcomplete j).mpr hjcomplete⟩
  obtain ⟨s'', n'', completionArr'', hround', -⟩ :=
    round_alone_inl (s := s') [.notify j] (n' + 1) hne
      (by simpa [hexcept', hexcept] using he) (by simpa [hcomplete] using hlast₁) completionArr'
  rw [waitAny, hwait] at ho
  cases hround'.symm.trans ho

/-- A call that waits for any task whatever others do has what it needs. -/
theorem ready_of_waitsForAny (hne : tasks ≠ []) {completionArr : ℕ → ℤ}
    (hwaits : ∀ moves, WaitsForAny (fun s h => Complete s.1 h) tasks
      (waitAny (scheduled moves) tasks (s, 0) completionArr)) :
    Ready Complete (fun s h => (s.except h).isSome) tasks s completionArr := by
  by_cases hthrows : ∃ h ∈ tasks, (s.except h).isSome
  · exact .inl hthrows
  have he : ∀ h ∈ tasks, s.except h = none := by
    intro h hh
    by_contra hne'
    exact hthrows ⟨h, hh, Option.isSome_iff_ne_none.mpr hne'⟩
  by_cases hsame : ∀ h ∈ tasks, h = tasks.getLast hne
  · exact .inr (.inl fun h hh h' hh' => (hsame h hh).trans (hsame h' hh').symm)
  obtain ⟨j, hj, hjlast⟩ : ∃ j ∈ tasks, j ≠ tasks.getLast hne := by
    by_contra hnone
    exact hsame fun h hh => by_contra fun hne' => hnone ⟨h, hh, hne'⟩
  have hlast := last_complete hne he hj hjlast hwaits
  obtain ⟨o, hround, hok, hcomplete⟩ :=
    round_alone_inr (s := s) [] 0 hne he hlast completionArr
  obtain ⟨-, hmarks⟩ := (hwaits (once [])).returned 1 o hround hok
  obtain ⟨-, hentry, -, hzero⟩ := (polls (once [])).round_inr hne hround hok
  refine .inr (.inr ⟨?_, ?_⟩)
  · intro h hh
    rw [List.getLast?_eq_some_getLast hne] at hh
    cases hh
    exact hlast
  · intro i h hi hmark
    refine (hcomplete h).mp (hmarks.only i h hi ?_)
    by_cases hi0 : i = 0
    · rw [hi0, hzero]
      exact one_ne_zero
    · rw [hentry i hi0]
      exact hmark.resolve_left hi0

/-- `pfunc::wait_any` waits for any task, whatever others do, iff it finds what it needs; the C
function, iff the array marks a complete task and no other one before the call. -/
theorem waitAny_iff (hne : tasks ≠ []) (s : Tasks π) (completionArr : ℕ → ℤ) :
    ((∀ moves, WaitsForAny (fun s h => Complete s.1 h) tasks
        (waitAny (scheduled moves) tasks (s, 0) completionArr)) ↔
      Ready Complete (fun s h => (s.except h).isSome) tasks s completionArr) ∧
      ((∀ ms : List Move, WaitsForAny Complete tasks fun _ =>
          .inr (cWaitAny (ε := Exception) (ms.foldl Move.apply s) completionArr)) ↔
        Marks Complete tasks s completionArr) := by
  refine ⟨⟨ready_of_waitsForAny hne, fun hready moves =>
    Ready.waitsForAny (polls moves) hne hready⟩, ?_, ?_⟩
  · intro hwaits
    exact ((hwaits []).returned 0 _ rfl rfl).2
  · intro hmarks ms
    refine ⟨?_, ?_⟩
    · rintro n o ho -
      cases ho
      have hmarks' : Marks Complete tasks (ms.foldl Move.apply s) completionArr :=
        hmarks.mono fun _ => complete_foldl ms
      exact ⟨hmarks'.exists_complete, hmarks'⟩
    · intro n r hn
      cases hn

/-- Two complete tasks, of which the array marks the first: both functions return with it, while
another task is completed and the second one is tested. -/
theorem waitAny_iff_mixedTasks :
    let marked : ℕ → ℤ := fun i => if i = 0 then 1 else 0
    (∃ o, waitAny (scheduled fun _ => [.notify 0, .test 3]) [1, 3] (mixedTasks, 0) marked 1 =
          .inr o ∧ o.result = .ok () ∧
        Marks (fun s h => Complete s.1 h) [1, 3] o.state o.completionArr) ∧
      ∀ ms : List Move, WaitsForAny Complete [1, 3] fun _ =>
        .inr (cWaitAny (ε := Exception) (ms.foldl Move.apply mixedTasks) marked) := by
  intro marked
  have hne : ([1, 3] : List Handle) ≠ [] := by decide
  have hiff := waitAny_iff hne mixedTasks marked
  have hcomplete : ∀ h ∈ [1, 3], Complete mixedTasks h := by decide
  have hready : Ready Complete (fun s h => (s.except h).isSome) [1, 3] mixedTasks marked := by
    refine .inr (.inr ⟨fun h hh => hcomplete h (List.mem_of_getLast? hh), ?_⟩)
    exact fun i h hi _ => hcomplete h (List.mem_of_getElem? hi)
  have hwaits := hiff.1.mpr hready fun _ => [.notify 0, .test 3]
  refine ⟨⟨_, rfl, rfl, (hwaits.returned 1 _ rfl rfl).2⟩, hiff.2.mpr ⟨⟨0, 1, rfl, ?_, ?_⟩, ?_⟩⟩
  · decide
  · decide
  · exact fun i h hi _ => hcomplete h (List.mem_of_getElem? hi)

/-- With an incomplete task before a complete one, `pfunc::wait_any` returns and marks the
incomplete one; the C function returns when no task is complete. -/
theorem waitAny_misreports :
    ¬(∀ moves, WaitsForAny (fun s h => Complete s.1 h) [0, 1]
        (waitAny (scheduled moves) [0, 1] (mixedTasks, 0) fun _ => 0)) ∧
      ¬∀ ms : List Move, WaitsForAny Complete [0] fun _ =>
        .inr (cWaitAny (ε := Exception) (ms.foldl Move.apply mixedTasks) fun _ => 0) := by
  refine ⟨?_, ?_⟩
  · intro h
    have hreturned := (h fun _ => []).returned 1 _ rfl rfl
    have hcomplete := hreturned.2.only 0 0 rfl (by decide)
    exact absurd hcomplete (by decide)
  · intro h
    obtain ⟨g, hg, hcomplete⟩ := ((h []).returned 0 _ rfl rfl).1
    rw [List.mem_singleton.mp hg] at hcomplete
    exact absurd hcomplete (by decide)

end PFunc.WaitAny
