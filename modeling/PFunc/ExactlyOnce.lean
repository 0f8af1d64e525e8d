import PFunc.CallStack

/-!
# Every spawn runs exactly once

If a handle is respawned only after its last spawn was notified and the waits on it have
returned, a spawn that is under way sits in exactly one place: once in one queue, or in the hand
or on the call stack of one worker. Its event is complete only after its functor has
run once, and a nested wait on it returns only after that.
-/

namespace PFunc.TaskManager

open LabelledRuns Atomics Event QueueSet Finset

variable {π : Type} {cfg : Config π} {s s' : State π}

/-- How often a thread has a task dequeued or on its call stack. -/
def Thread.held (th : Thread π) (h : Handle) : ℕ :=
  th.count h .taken + th.count h .running + th.count h .returned

/-- The number of places that hold a task: queues and workers. -/
def State.places (cfg : Config π) (s : State π) (h : Handle) : ℕ :=
  ∑ q ∈ range cfg.numQueues, (s.queue q).count h + ∑ t ∈ range cfg.numThreads, (s.thread t).held h

/-- The innermost wait of the thread, on `h`, returns to the functor that called it. -/
def WaitReturns (s : State π) (t : ℕ) (s' : State π) (h : Handle) : Prop :=
  (s.thread t).ctl.awaited = some h ∧ (s'.thread t).ctl = .functor ∧
    (s'.thread t).frames = (s.thread t).frames

/-- The event of a nested task is incomplete while a spawn is under way, and who has
found it complete is right. -/
structure State.Events (cfg : Config π) (s : State π) : Prop where
  once : ∀ h, s.hist.entries h .spawning ≤ s.hist.entries h .complete + 1
  incomplete : ∀ h, (s.task h).attr.isNested →
    ((s.task h).testingCompl.eventState = activeIncomplete ↔
      s.hist.entries h .complete < s.hist.entries h .spawning)
  nested : ∀ t ≤ cfg.numThreads, ∀ h ∈ (s.thread t).awaited, (s.task h).attr.isNested
  seen : ∀ t ≤ cfg.numThreads, ∀ h, (s.thread t).ctl.seen = some h →
    (s.task h).testingCompl.eventState ≠ activeIncomplete

namespace State.Events

theorem isNested_of_seen (hs : s.Events cfg) {t : ℕ} (ht : t ≤ cfg.numThreads) {h : Handle}
    (hseen : (s.thread t).ctl.seen = some h) : (s.task h).attr.isNested :=
  hs.nested t ht h (Thread.mem_awaited.mpr (.inl (Thread.awaited_of_seen hseen)))

/-- A step that neither spawns nor notifies. -/
theorem quiet (hs : s.Events cfg) {l : Label π} (he : Effect cfg s l s')
    (hcopy : ∀ h, (s'.task h).toCopy = (s.task h).toCopy)
    (hentries : ∀ h, s'.hist.entries h .spawning = s.hist.entries h .spawning ∧
      s'.hist.entries h .complete = s.hist.entries h .complete)
    (hevent : ∀ h, (s'.task h).testingCompl.eventState = activeIncomplete ↔
      (s.task h).testingCompl.eventState = activeIncomplete)
    (hseen : ∀ h, (s'.thread l.thread).ctl.seen = some h →
      (s.task h).testingCompl.eventState ≠ activeIncomplete) : s'.Events cfg := by
  have hattr : ∀ h, (s'.task h).attr = (s.task h).attr := fun h => congrArg Copy.attr (hcopy h)
  constructor
  case once =>
    intro h
    rw [(hentries h).1, (hentries h).2]
    exact hs.once h
  case incomplete =>
    intro h hn
    rw [hevent h, (hentries h).1, (hentries h).2]
    exact hs.incomplete h (hattr h ▸ hn)
  case nested =>
    intro t ht h hw
    rw [hattr h]
    rcases he.awaited hw with hw | ⟨-, -, hn⟩
    · exact hs.nested t ht h hw
    · exact hn
  case seen =>
    intro t ht h ho
    rw [Ne, hevent h]
    by_cases htl : t = l.thread
    · exact hseen h (htl ▸ ho)
    · rw [he.other htl] at ho
      exact hs.seen t ht h ho

theorem spawn (hs : s.Events cfg) {l : Label π} (hd : Respawn cfg s l) {h : Handle}
    {attr : Attribute π} {g : GroupId} {q : ℕ} (hact : l.act = .spawn h attr g)
    (he : Effect cfg s l (s.spawn l.thread h attr g q)) :
    (s.spawn l.thread h attr g q).Events cfg := by
  simp only [Respawn, hact] at hd
  have htask : ∀ h', h' ≠ h → (s.spawn l.thread h attr g q).task h' = s.task h' :=
    fun h' hne => Function.update_of_ne hne _ _
  have hself : (s.spawn l.thread h attr g q).task h =
      ((s.task h).spawn attr g (s.group g)).1 := Function.update_self _ _ _
  have hne_of_awaited : ∀ t ≤ cfg.numThreads, ∀ h' ∈ (s.thread t).awaited, h' ≠ h := by
    intro t ht h' hw hh
    exact hd.2 t ht (hh ▸ hw)
  constructor
  case once =>
    intro h'
    have := hs.once h'
    by_cases hh : h = h'
    · subst hh
      simp [State.spawn, State.enter, State.goto, State.setThread, State.setGroup, State.setTask,
        History.enter, hd.1]
    · simpa [State.spawn, State.enter, State.goto, State.setThread, State.setGroup,
        State.setTask, History.enter, hh] using this
  case incomplete =>
    intro h' hn
    by_cases hh : h' = h
    · subst hh
      rw [hself] at hn ⊢
      rw [Task.spawn_attr] at hn
      refine iff_of_true (Task.spawn_testingCompl _ _ _ hn) ?_
      simp [State.spawn, State.enter, State.goto, State.setThread, State.setGroup, State.setTask,
        History.enter, hd.1]
    · rw [htask h' hh] at hn ⊢
      simpa [State.spawn, State.enter, State.goto, State.setThread, State.setGroup,
        State.setTask, History.enter, Ne.symm hh] using hs.incomplete h' hn
  case nested =>
    intro t ht h' hw
    rcases he.awaited hw with hw | ⟨-, hact', -⟩
    · rw [htask h' (hne_of_awaited t ht h' hw)]
      exact hs.nested t ht h' hw
    · rw [hact] at hact'
      cases hact'
  case seen =>
    intro t ht h' ho
    by_cases htl : t = l.thread
    · subst htl
      simp [State.spawn, State.enter, State.goto, State.setThread, Ctl.seen] at ho
    · rw [he.other htl] at ho
      rw [htask h' (hne_of_awaited t ht h'
        (Thread.mem_awaited.mpr (.inl (Thread.awaited_of_seen ho))))]
      exact hs.seen t ht h' ho

theorem notify (hs : s.Events cfg) {l : Label π} {f : Frame π}
    (he : Effect cfg s l (s.notify cfg l.thread f)) : (s.notify cfg l.thread f).Events cfg := by
  have htask : ∀ h, h ≠ f.task → (s.notify cfg l.thread f).task h = s.task h :=
    fun h hne => Function.update_of_ne hne _ _
  have hself : (s.notify cfg l.thread f).task f.task = (s.task f.task).notify :=
    Function.update_self _ _ _
  have hattr : ∀ h, ((s.notify cfg l.thread f).task h).attr = (s.task h).attr := by
    intro h
    by_cases hh : h = f.task
    · rw [hh, hself]
      exact congrArg Copy.attr (Task.notify_toCopy _)
    · rw [htask h hh]
  have hstate : (s.task f.task).attr.isNested →
      ((s.notify cfg l.thread f).task f.task).testingCompl.eventState ≠ activeIncomplete := by
    intro hn
    rw [hself, Task.notify_testingCompl _ hn]
    exact complete_ne_incomplete
  constructor
  case once =>
    intro h
    have := hs.once h
    by_cases hh : f.task = h <;> simp [State.notify, State.enter, State.setThread,
      State.setTask, History.enter, hh] <;> omega
  case incomplete =>
    intro h hn
    rw [hattr h] at hn
    by_cases hh : h = f.task
    · subst hh
      refine iff_of_false (hstate hn) ?_
      have := hs.once f.task
      simp [State.notify, State.enter, State.setThread, State.setTask, History.enter]
      omega
    · rw [htask h hh]
      simpa [State.notify, State.enter, State.setThread, State.setTask, History.enter,
        Ne.symm hh] using hs.incomplete h hn
  case nested =>
    intro t ht h hw
    rw [hattr h]
    rcases he.awaited hw with hw | ⟨-, -, hn⟩
    · exact hs.nested t ht h hw
    · exact hn
  case seen =>
    intro t ht h ho
    by_cases htl : t = l.thread
    · subst htl
      simp only [State.notify, State.enter, State.setThread, Function.update_self] at ho
      cases hp : f.point <;> simp [hp, resume, getTask, Ctl.seen] at ho
    · rw [he.other htl] at ho
      by_cases hh : h = f.task
      · subst hh
        exact hstate (hs.isNested_of_seen ht ho)
      · rw [htask h hh]
        exact hs.seen t ht h ho

theorem effect (hs : s.Events cfg) {l : Label π} (hl : l.thread ≤ cfg.numThreads)
    (hd : Respawn cfg s l) (he : Effect cfg s l s') : s'.Events cfg := by
  have hcase := he
  cases he with
  | stay hact => exact hs
  | spawn h attr g q hact => exact hs.spawn hd hact hcase
  | notify f hc => exact hs.notify hcase
  | wait h c hact hc hn hcase' =>
    refine hs.quiet hcase (fun _ => rfl) (fun _ => ⟨rfl, rfl⟩) (fun _ => Iff.rfl) ?_
    intro h' ho
    simp only [State.goto, State.setThread, Function.update_self] at ho
    rcases hcase' with ⟨-, rfl⟩ | ⟨-, rfl⟩ <;> simp [Ctl.seen, getTask] at ho
  | arrive g x c hact hc hf hcase' =>
    refine hs.quiet hcase (fun _ => rfl) (fun _ => ⟨rfl, rfl⟩) (fun _ => Iff.rfl) ?_
    intro h' ho
    simp only [State.goto, State.setThread, Function.update_self] at ho
    rcases hcase' with rfl | ⟨myPhase, rfl⟩ <;> simp [Ctl.seen] at ho
  | ret f rest =>
    refine hs.quiet hcase (fun _ => rfl) ?_ (fun _ => Iff.rfl) ?_
    · simp [State.ret, State.enter, State.setThread, History.enter]
    · simp [State.ret, State.enter, State.setThread, Ctl.seen]
  | put h q =>
    refine hs.quiet hcase (fun _ => rfl) ?_ (fun _ => Iff.rfl) ?_
    · simp [State.put, State.goto, State.setThread, History.enter]
    · simp [State.put, State.goto, State.setThread, Ctl.seen]
  | goto c htoken hawaited hseen =>
    refine hs.quiet hcase (fun _ => rfl) (fun _ => ⟨rfl, rfl⟩) (fun _ => Iff.rfl) ?_
    simp [State.goto, State.setThread, hseen]
  | test h pc c hpc hwait htoken hawaited hseen =>
    have hold : pc ≠ .incomplete → (s.task h).testingCompl.eventState ≠ activeIncomplete :=
      fun hne => hs.seen _ hl h (hpc hne)
    refine hs.quiet hcase ?_ (fun _ => ⟨rfl, rfl⟩) ?_ ?_
    · intro h'
      by_cases hh : h' = h
      · subst hh
        simp [State.goto, State.test, State.setTask, State.setThread]
      · simp [State.goto, State.test, State.setTask, State.setThread, hh]
    · intro h'
      by_cases hh : h' = h
      · subst hh
        simpa [State.goto, State.test, State.setTask, State.setThread] using
          EventBase.test_incomplete_iff hold
      · simp [State.goto, State.test, State.setTask, State.setThread, hh]
    · intro h' ho
      simp only [State.goto, State.setThread, Function.update_self] at ho
      rcases hseen with hn | ⟨hsome, hr⟩
      · rw [hn] at ho
        cases ho
      · rw [hsome] at ho
        cases ho
        exact EventBase.test_goes_on hr hold
  | take p n k i top h rest =>
    refine hs.quiet hcase (fun _ => rfl) ?_ (fun _ => Iff.rfl) ?_
    · simp [State.take, State.goto, State.setThread, History.enter]
    · cases p <;> simp [State.take, State.goto, State.setThread, found, Ctl.seen]
  | start p h =>
    refine hs.quiet hcase (fun _ => rfl) ?_ (fun _ => Iff.rfl) ?_
    · simp [State.start, State.enter, State.setThread, History.enter]
    · simp [State.start, State.enter, State.setThread, Ctl.seen]
  | leave h =>
    refine hs.quiet hcase ?_ ?_ ?_ ?_
    · simp
    · simp
    · simp
    · simp [Ctl.seen]

theorem initial : (initial cfg).Events cfg := by
  refine ⟨by simp [TaskManager.initial], ?_, ?_, ?_⟩
  · simp [TaskManager.initial, Task.new, EventBase.new, inactive, activeIncomplete]
  · intro t _ h hw
    by_cases ht : t = cfg.numThreads <;>
      simp [TaskManager.initial, Thread.awaited, Ctl.awaited, Ctl.point, getTask, Point.awaited,
        ht] at hw
  · intro t _ h ho
    by_cases ht : t = cfg.numThreads <;>
      simp [TaskManager.initial, Ctl.seen, getTask, ht] at ho

theorem reachable (hr : (system cfg).Reachable (Respawn cfg) s) : s.Events cfg := by
  refine hr.invariant (I := fun s => s.Events cfg) initial ?_
  intro s l s' hs hd hstep
  obtain ⟨hl, he⟩ := step_effect hstep
  exact hs.effect hl hd he

end State.Events

/-- While a spawn is under way, the event that the attribute selects is incomplete. -/
theorem completion_incomplete (hr : (system cfg).Reachable (Respawn cfg) s) (h : Handle)
    (hlt : s.hist.entries h .complete < s.hist.entries h .spawning) :
    (s.task h).completion.eventState = activeIncomplete := by
  revert h
  refine hr.invariant' (I := fun s => ∀ h, s.hist.entries h .complete < s.hist.entries h .spawning →
    (s.task h).completion.eventState = activeIncomplete)
    (fun h hlt => absurd hlt (Nat.lt_irrefl 0)) ?_
  intro s l s' hr hs hd hstep h hlt
  obtain ⟨hl, he⟩ := step_effect hstep
  have hevents := State.Events.reachable hr
  cases he with
  | spawn h' attr g q =>
    by_cases hh : h = h'
    · subst hh
      simp [State.spawn, State.enter, State.goto, State.setThread, State.setGroup, State.setTask,
        Task.spawn_completion]
    · simp only [State.spawn, State.enter, State.goto, State.setThread, State.setGroup,
        State.setTask, History.enter, Function.update_of_ne hh, Ne.symm hh, false_and, if_false,
        add_zero] at hlt ⊢
      exact hs h hlt
  | notify f =>
    have hne : h ≠ f.task := by
      rintro rfl
      have := hevents.once f.task
      simp [State.notify, State.enter, State.setThread, State.setTask, History.enter] at hlt
      omega
    simp only [State.notify, State.enter, State.setThread, State.setTask, History.enter,
      Function.update_of_ne hne, Ne.symm hne, false_and, if_false, add_zero] at hlt ⊢
    exact hs h hlt
  | test h' pc c hpc =>
    have hkept : (s.task h).completion.eventState = activeIncomplete := hs h hlt
    by_cases hh : h = h'
    · subst hh
      have hold : pc ≠ .incomplete → (s.task h).testingCompl.eventState ≠ activeIncomplete :=
        fun hne => hevents.seen _ hl h (hpc hne)
      cases hn : (s.task h).attr.isNested with
      | true =>
        simp only [Task.completion, hn, if_true] at hkept
        simpa [Task.completion, hn, State.goto, State.test, State.setTask, State.setThread] using
          (EventBase.test_incomplete_iff hold).mpr hkept
      | false =>
        simpa [Task.completion, hn, State.goto, State.test, State.setTask, State.setThread]
          using hkept
    · simpa [State.goto, State.test, State.setTask, State.setThread, hh] using hkept
  | ret f rest =>
    exact hs h (by simpa [State.ret, State.enter, State.setThread, History.enter] using hlt)
  | put h' q =>
    exact hs h (by simpa [State.put, State.goto, State.setThread, History.enter] using hlt)
  | take p n k i top h' rest =>
    exact hs h (by simpa [State.take, State.goto, State.setThread, History.enter] using hlt)
  | start p h' =>
    exact hs h (by simpa [State.start, State.enter, State.setThread, History.enter] using hlt)
  | leave h' =>
    rw [leave_task]
    exact hs h (by simpa using hlt)
  | _ => exact hs h hlt

theorem WaitReturns.leaving {l : Label π} {h : Handle} (hw : WaitReturns s l.thread s' h)
    (he : Effect cfg s l s') : (s.thread l.thread).ctl = .leaving h := by
  obtain ⟨hawaited, hctl, hframes⟩ := hw
  have hfunctor : (Ctl.functor : Ctl π).awaited = none := rfl
  cases he with
  | stay =>
    rw [hctl] at hawaited
    cases hawaited
  | leave h' hc =>
    rw [hc] at hawaited ⊢
    cases hawaited
    rfl
  | spawn _ _ _ _ _ hc =>
    rw [hc] at hawaited
    cases hawaited
  | wait _ _ _ hc =>
    rw [hc] at hawaited
    cases hawaited
  | arrive _ _ _ _ hc =>
    rw [hc] at hawaited
    cases hawaited
  | ret _ _ _ hc =>
    rw [hc] at hawaited
    cases hawaited
  | put _ _ _ hc =>
    rw [hc] at hawaited
    cases hawaited
  | goto c _ hsame =>
    simp only [State.goto, State.setThread, Function.update_self] at hctl
    rw [hctl, hawaited] at hsame
    cases hsame
  | test _ _ c _ _ _ hsame =>
    simp only [State.goto, State.setThread, Function.update_self] at hctl
    rw [hctl, hawaited] at hsame
    cases hsame
  | take p =>
    simp only [State.take, State.goto, State.setThread, Function.update_self] at hctl
    cases p <;> cases hctl
  | start p h' =>
    simp [State.start, State.enter, State.setThread] at hframes
  | notify f =>
    simp only [State.notify, State.enter, State.setThread, Function.update_self] at hctl
    cases hp : f.point <;> rw [hp] at hctl <;> cases hctl

theorem Thread.count_queued (th : Thread π) (h : Handle) : th.count h .queued = 0 := by
  cases hc : th.ctl <;> simp [Thread.count, hc, Ctl.token]

theorem Thread.CallStack.held_main {copy : Handle → Copy π} {th : Thread π}
    (hth : th.CallStack cfg copy cfg.numThreads) (h : Handle) : th.held h = 0 := by
  obtain ⟨hframes, hpoint, -⟩ := hth.main rfl
  cases hc : th.ctl <;> simp [hc, Ctl.point] at hpoint <;>
    simp [Thread.held, Thread.count, hc, Ctl.token, hframes]

/-- Queues and workers hold the spawns between `put` and `notify`. -/
theorem places_eq (hs : s.Flow cfg)
    (hmain : (s.thread cfg.numThreads).CallStack cfg (fun h => (s.task h).toCopy) cfg.numThreads)
    (h : Handle) : s.hist.entries h .queued = s.hist.entries h .complete + s.places cfg h := by
  have h₂ := hs h .queued .taken rfl
  have h₃ := hs h .taken .running rfl
  have h₄ := hs h .running .returned rfl
  have h₅ := hs h .returned .complete rfl
  have hheld : ∑ t ∈ range cfg.numThreads, (s.thread t).held h =
      ∑ t ∈ range (cfg.numThreads + 1), (s.thread t).held h := by
    rw [sum_range_succ, hmain.held_main, Nat.add_zero]
  have hsum : ∑ t ∈ range (cfg.numThreads + 1), (s.thread t).held h =
      s.occupancy cfg h .taken + s.occupancy cfg h .running + s.occupancy cfg h .returned := by
    simp [State.occupancy, Thread.held, sum_add_distrib]
  have hqueued : s.occupancy cfg h .queued = ∑ q ∈ range cfg.numQueues, (s.queue q).count h := by
    simp [State.occupancy, Thread.count_queued]
  unfold State.places
  omega

theorem State.Flow.stages (hs : s.Flow cfg) (h : Handle) :
    s.hist.entries h .complete ≤ s.hist.entries h .returned ∧
      s.hist.entries h .returned ≤ s.hist.entries h .running ∧
      s.hist.entries h .running ≤ s.hist.entries h .queued ∧
      s.hist.entries h .queued ≤ s.hist.entries h .spawning := by
  have h₁ := hs h .spawning .queued rfl
  have h₂ := hs h .queued .taken rfl
  have h₃ := hs h .taken .running rfl
  have h₄ := hs h .running .returned rfl
  have h₅ := hs h .returned .complete rfl
  omega

/-- A spawn under way is in exactly one place. -/
theorem places_eq_one (hr : (system cfg).Reachable (Respawn cfg) s) {h : Handle}
    (hlt : s.hist.entries h .complete < s.hist.entries h .queued) : s.places cfg h = 1 := by
  have hflow := (flow_reachable hr).1
  have := places_eq hflow (callStack_reachable hr cfg.numThreads (by omega)) h
  have := hflow.stages h
  have := (State.Events.reachable hr).once h
  omega

/-- Whoever finds the event of a nested task complete knows that its functor has run. -/
theorem runs_of_complete (hr : (system cfg).Reachable (Respawn cfg) s) {h : Handle}
    (hn : (s.task h).attr.isNested)
    (hne : (s.task h).testingCompl.eventState ≠ activeIncomplete) :
    s.hist.entries h .complete = s.hist.entries h .spawning := by
  have hnot := mt ((State.Events.reachable hr).incomplete h hn).mpr hne
  have := (flow_reachable hr).1.stages h
  omega

/-- What exactly-once execution means of a state: `placed` speaks of the spawns between
`put` and `notify`, the rest of all spawns. -/
structure State.ExactlyOnce (cfg : Config π) (s : State π) : Prop where
  placed : ∀ h, s.hist.entries h .complete < s.hist.entries h .queued → s.places cfg h = 1
  runs : ∀ h, s.hist.entries h .complete ≤ s.hist.entries h .returned ∧
    s.hist.entries h .returned ≤ s.hist.entries h .running ∧
    s.hist.entries h .running ≤ s.hist.entries h .queued ∧
    s.hist.entries h .queued ≤ s.hist.entries h .complete + 1
  complete : ∀ h, (s.task h).attr.isNested →
    (s.task h).testingCompl.eventState ≠ activeIncomplete →
      s.hist.entries h .running = s.hist.entries h .spawning ∧
      s.hist.entries h .returned = s.hist.entries h .spawning
  waits : ∀ l s' h, step cfg s l = some s' → WaitReturns s l.thread s' h →
    s.hist.entries h .running = s.hist.entries h .spawning ∧
    s.hist.entries h .returned = s.hist.entries h .spawning

/-- In every run that respawns a handle only after its last spawn was notified and
the waits on it have returned, each spawn under way is in exactly one place, its
functor runs once before its event is complete, and no nested wait returns before. -/
theorem exactly_once (hr : (system cfg).Reachable (Respawn cfg) s) : s.ExactlyOnce cfg := by
  have hevents := State.Events.reachable hr
  have hcomplete : ∀ h, (s.task h).attr.isNested →
      (s.task h).testingCompl.eventState ≠ activeIncomplete →
        s.hist.entries h .running = s.hist.entries h .spawning ∧
        s.hist.entries h .returned = s.hist.entries h .spawning := by
    intro h hn hne
    have := runs_of_complete hr hn hne
    have := (flow_reachable hr).1.stages h
    omega
  refine ⟨fun h => places_eq_one hr, ?_, hcomplete, ?_⟩
  · intro h
    have := (flow_reachable hr).1.stages h
    have := hevents.once h
    omega
  · intro l s' h hstep hw
    obtain ⟨hl, he⟩ := step_effect hstep
    have hseen : (s.thread l.thread).ctl.seen = some h := by
      rw [hw.leaving he]
      rfl
    exact hcomplete h (hevents.isNested_of_seen hl hseen) (hevents.seen _ hl h hseen)

/-- The main thread spawns a task and waits; the worker of the other queue steals it and runs it. -/
def stealRun : List (Label ℕ) :=
  [⟨2, .spawn 7 (.new 0 true false) 0⟩, ⟨2, .tick 0⟩, ⟨2, .wait 7⟩, ⟨2, .tick 0⟩,
    ⟨1, .tick 0⟩, ⟨1, .tick 0⟩, ⟨1, .tick 0⟩, ⟨1, .tick 0⟩, ⟨1, .tick 0⟩, ⟨1, .ret⟩]

theorem exactly_once_stealRun :
    (((system (.small .cilkS [1, 1])).final stealRun).thread 1).held 7 = 1 ∧
      State.ExactlyOnce (.small .cilkS [1, 1]) ((system (.small .cilkS [1, 1])).final stealRun) :=
  ⟨by decide, exactly_once (System.reachable_final (by decide))⟩

end PFunc.TaskManager
