import PFunc.TaskManager

/-!
# What one step of the task manager can do

`Effect` lists the steps with what later proofs need of them: the task a thread carries
from one stage to the next, the task it waits for, and the scheduling point it is at.
-/

namespace PFunc.TaskManager

open LabelledRuns Atomics Event QueueSet

variable {π : Type} {cfg : Config π} {s s' : State π}

/-- The copy of the suspended task that a scheduling point keeps. -/
def Point.current? : Point π → Option (Copy π)
  | .work => none
  | .wait current _ => some current
  | .barrier current _ _ => some current

def Point.awaited : Point π → Option Handle
  | .wait _ h => some h
  | _ => none

namespace Ctl

/-- The scheduling point a thread is at, or to which it is about to come back. -/
def point : Ctl π → Option (Point π)
  | .seeking p _ _ => some p
  | .took p _ _ => some p
  | .starting p _ => some p
  | .returned f => some f.point
  | _ => none

/-- The task on which the innermost call of `wait` waits. -/
def awaited : Ctl π → Option Handle
  | .polling h _ => some h
  | .leaving h => some h
  | c => c.point.bind Point.awaited

/-- The task that the thread has found complete and still waits on. -/
def seen : Ctl π → Option Handle
  | .polling h pc => if pc = .incomplete then none else some h
  | .seeking (.wait _ h) _ (.test _ pc) => if pc = .incomplete then none else some h
  | .took (.wait _ h) _ pc => if pc = .incomplete then none else some h
  | .leaving h => some h
  | _ => none

/-- The task that is neither queued nor on a stack, and its stage. -/
def token : Ctl π → Option (Handle × Stage)
  | .spawning h _ => some (h, .spawning)
  | .took _ h _ => some (h, .taken)
  | .starting _ h => some (h, .taken)
  | .returned f => some (f.task, .returned)
  | _ => none

end Ctl

theorem Ctl.returned_of_token {c : Ctl π} {h : Handle} (hc : c.token = some (h, .returned)) :
    ∃ f, c = .returned f := by
  cases c <;> simp [Ctl.token] at hc
  exact ⟨_, rfl⟩

/-- The tasks for which calls of `wait` on the thread's stack wait. -/
def Thread.awaited (th : Thread π) : List Handle :=
  th.ctl.awaited.toList ++ th.frames.filterMap fun f => f.point.awaited

/-- The tasks of a stack, each with the task it awaits. -/
def waitPairs : Option Handle → List (Frame π) → List (Handle × Handle)
  | _, [] => []
  | awaited, f :: fs => awaited.toList.map (f.task, ·) ++ waitPairs f.point.awaited fs

def Thread.waitPairs (th : Thread π) : List (Handle × Handle) :=
  TaskManager.waitPairs th.ctl.awaited th.frames

theorem mem_waitPairs {awaited : Option Handle} {fs : List (Frame π)} {p h : Handle}
    (hw : (p, h) ∈ waitPairs awaited fs) :
    awaited = some h ∧ fs.head?.map (·.task) = some p ∨ (p, h) ∈ waitPairs none fs := by
  cases fs with
  | nil => exact .inr hw
  | cons f fs =>
    rcases List.mem_append.mp hw with hw | hw
    · obtain ⟨h', hh', he⟩ := List.mem_map.mp hw
      cases he
      exact .inl ⟨Option.mem_toList.mp hh', rfl⟩
    · exact .inr hw

theorem mem_waitPairs_of_none {awaited : Option Handle} {fs : List (Frame π)}
    {p h : Handle} (hw : (p, h) ∈ waitPairs none fs) : (p, h) ∈ waitPairs awaited fs := by
  cases fs with
  | nil => exact hw
  | cons f fs => exact List.mem_append_right _ hw

theorem awaited_of_waitPairs {awaited : Option Handle} {fs : List (Frame π)} {p h : Handle}
    (hw : (p, h) ∈ waitPairs awaited fs) :
    awaited = some h ∨ ∃ f ∈ fs, f.point.awaited = some h := by
  induction fs generalizing awaited with
  | nil => cases hw
  | cons f fs ih =>
    rcases mem_waitPairs hw with ⟨hh, -⟩ | hw
    · exact .inl hh
    · rcases ih hw with hf | ⟨g, hg, hh⟩
      · exact .inr ⟨f, by simp, hf⟩
      · exact .inr ⟨g, List.mem_cons_of_mem f hg, hh⟩

theorem Thread.mem_awaited {th : Thread π} {h : Handle} : h ∈ th.awaited ↔
    th.ctl.awaited = some h ∨ ∃ f ∈ th.frames, f.point.awaited = some h := by
  simp [Thread.awaited]

theorem Thread.awaited_of_seen {th : Thread π} {h : Handle} (hs : th.ctl.seen = some h) :
    th.ctl.awaited = some h := by
  rcases th with ⟨frames, ctl, cache⟩
  cases ctl with
  | polling h' pc => by_cases hpc : pc = .incomplete <;> simp_all [Ctl.seen, Ctl.awaited]
  | seeking p n sk =>
    cases p <;> cases sk <;> simp [Ctl.seen] at hs
    simp [Ctl.awaited, Ctl.point, Point.awaited, hs.2]
  | took p h' pc =>
    cases p <;> simp [Ctl.seen] at hs
    simp [Ctl.awaited, Ctl.point, Point.awaited, hs.2]
  | leaving h' => simpa [Ctl.seen, Ctl.awaited] using hs
  | functor => simp [Ctl.seen] at hs
  | spawning => simp [Ctl.seen] at hs
  | starting => simp [Ctl.seen] at hs
  | returned => simp [Ctl.seen] at hs
  | spinning => simp [Ctl.seen] at hs

@[simp] theorem leave_thread (s : State π) (t : ℕ) (h : Handle) :
    (s.leave cfg t h).thread =
      Function.update s.thread t { s.thread t with ctl := .functor } := by
  unfold State.leave
  dsimp only
  split <;> rfl

@[simp] theorem leave_queue (s : State π) (t : ℕ) (h : Handle) :
    (s.leave cfg t h).queue = s.queue := by
  unfold State.leave
  dsimp only
  split <;> rfl

@[simp] theorem leave_task (s : State π) (t : ℕ) (h : Handle) :
    (s.leave cfg t h).task = s.task := by
  unfold State.leave
  dsimp only
  split <;> rfl

@[simp] theorem leave_hist (s : State π) (t : ℕ) (h : Handle) :
    (s.leave cfg t h).hist = { s.hist with
      unjoined := if t = cfg.numThreads then s.hist.unjoined
        else s.hist.unjoined.filter (· ≠ h) } := by
  unfold State.leave
  dsimp only
  split <;> rfl

/-- How the scheduling point may change when no task is taken or started. -/
inductive PointMove (th : Thread π) (c : Ctl π) : Prop
  | same (h : c.point = th.ctl.point) (hspin : ∀ g myPhase, c ≠ .spinning g myPhase)
  | left (h : c.point = none) (p : Point π) (hp : th.ctl.point = some p) (hw : p.current? ≠ none)
      (hspin : ∀ g myPhase, c = .spinning g myPhase → ∃ current, p = .barrier current g myPhase)
  | spin (g : GroupId) (myPhase : Bool) (hc : th.ctl = .spinning g myPhase)
      (h : c.point = some (.barrier th.cache g myPhase))

inductive Effect (cfg : Config π) (s : State π) (l : Label π) : State π → Prop
  | stay (hact : l.act = .barrier) : Effect cfg s l s
  | spawn (h : Handle) (attr : Attribute π) (g : GroupId) (q : ℕ)
      (hact : l.act = .spawn h attr g) (hc : (s.thread l.thread).ctl = .functor)
      (hq : q < cfg.numQueues)
      (hqn : q = if queueCurrentThread = attr.queueNumber then cfg.queueNumber l.thread
        else attr.queueNumber) : Effect cfg s l (s.spawn l.thread h attr g q)
  | wait (h : Handle) (c : Ctl π) (hact : l.act = .wait h)
      (hc : (s.thread l.thread).ctl = .functor) (hn : (s.task h).attr.isNested)
      (hcase : l.thread = cfg.numThreads ∧ c = .polling h .incomplete ∨
        l.thread < cfg.numThreads ∧ c = getTask cfg (.wait (s.thread l.thread).cache h)) :
      Effect cfg s l (s.goto l.thread c)
  | arrive (g : GroupId) (x : Group) (c : Ctl π) (hact : l.act = .barrier)
      (hc : (s.thread l.thread).ctl = .functor) (hf : (s.thread l.thread).frames ≠ [])
      (hcase : c = .functor ∨ ∃ myPhase, c = .spinning g myPhase) :
      Effect cfg s l ((s.setGroup g x).goto l.thread c)
  | ret (f : Frame π) (rest : List (Frame π)) (hact : l.act = .ret)
      (hc : (s.thread l.thread).ctl = .functor) (hf : (s.thread l.thread).frames = f :: rest) :
      Effect cfg s l (s.ret l.thread f rest)
  | put (h : Handle) (q : ℕ) (hact : ∃ top, l.act = .tick top)
      (hc : (s.thread l.thread).ctl = .spawning h q) : Effect cfg s l (s.put cfg l.thread h q)
  | goto (c : Ctl π) (htoken : c.token = (s.thread l.thread).ctl.token)
      (hawaited : c.awaited = (s.thread l.thread).ctl.awaited) (hseen : c.seen = none)
      (hspawn : ∀ h q, c ≠ .spawning h q) (hpoint : PointMove (s.thread l.thread) c) :
      Effect cfg s l (s.goto l.thread c)
  | test (h : Handle) (pc : EventBase.TestPc) (c : Ctl π)
      (hpc : pc ≠ .incomplete → (s.thread l.thread).ctl.seen = some h)
      (hwait : (s.thread l.thread).ctl.awaited = some h)
      (htoken : c.token = (s.thread l.thread).ctl.token)
      (hawaited : c.awaited = (s.thread l.thread).ctl.awaited)
      (hseen : c.seen = none ∨ c.seen = some h ∧ (s.test h pc).2 ≠ .inr false)
      (hpoint : PointMove (s.thread l.thread) c) :
      Effect cfg s l ((s.test h pc).1.goto l.thread c)
  | take (p : Point π) (numAttempts : Word) (k i top : ℕ) (h : Handle) (rest : List Handle)
      (hc : (s.thread l.thread).ctl = .seeking p numAttempts (.visit k)) (hi : i < cfg.numQueues)
      (hact : l.act = .tick top) (hk : k < cfg.numQueues)
      (hik : i = (cfg.queueNumber l.thread + k) % cfg.numQueues)
      (htop : LegitTop cfg.policy (compareTaskPtr cfg s) (s.queue i) top)
      (hget : testAndGet cfg.policy (i == cfg.queueNumber l.thread) top (p.predicate cfg s)
        (s.queue i) = some (h, rest)) : Effect cfg s l (s.take l.thread p i h rest)
  | start (p : Point π) (h : Handle) (hc : (s.thread l.thread).ctl = .starting p h) :
      Effect cfg s l (s.start l.thread p h)
  | notify (f : Frame π) (hc : (s.thread l.thread).ctl = .returned f) :
      Effect cfg s l (s.notify cfg l.thread f)
  | leave (h : Handle) (hc : (s.thread l.thread).ctl = .leaving h) :
      Effect cfg s l (s.leave cfg l.thread h)

theorem found_point (h : Handle) (p : Point π) : (found h p).point = some p := by
  cases p <;> rfl

theorem found_token (h : Handle) (p : Point π) : (found h p).token = some (h, .taken) := by
  cases p <;> rfl

theorem resume_token (cache : Copy π) (p : Point π) : (resume cfg cache p).2.token = none := by
  cases p <;> rfl

theorem tested_spec {p : Point π} {n : Word} {site : Site} {b : Bool} {c : Ctl π}
    (h : tested cfg p n site b = some c) :
    (∃ n' sk, c = .seeking p n' sk ∧ c.seen = none) ∨
      ∃ current h', b = true ∧ p = .wait current h' ∧ c = .leaving h' := by
  cases site <;> cases b
  · simp only [tested] at h
    split at h <;> cases h <;> exact .inl ⟨_, _, rfl, by cases p <;> rfl⟩
  · cases h
    exact .inl ⟨_, _, rfl, by cases p <;> rfl⟩
  · cases h
    exact .inl ⟨_, _, rfl, by cases p <;> rfl⟩
  · cases p with
    | wait current h' =>
      cases h
      exact .inr ⟨current, h', rfl, rfl, rfl⟩
    | work => cases h
    | barrier => cases h

/-- A test that has not returned has seen the event complete unless it is about to load again. -/
theorem seen_of_unreturned {h : Handle} {pc pc' : EventBase.TestPc} {c : Ctl π}
    (hr : (s.test h pc).2 = .inl pc')
    (hseen : c.seen = if pc' = .incomplete then none else some h) :
    c.seen = none ∨ c.seen = some h ∧ (s.test h pc).2 ≠ .inr false := by
  by_cases hi : pc' = .incomplete
  · exact .inl (by simp [hseen, hi])
  · exact .inr ⟨by simp [hseen, hi], by simp [hr]⟩

theorem seek_effect {l : Label π} {p : Point π} {n : Word} {top : ℕ} {sk : Seek}
    (hact : l.act = .tick top) (hc : (s.thread l.thread).ctl = .seeking p n sk)
    (h : seek cfg s l.thread p n top sk = some s') : Effect cfg s l s' := by
  have hidle : ∀ n' sk', (Ctl.seeking p n' sk').seen = none →
      Effect cfg s l (s.goto l.thread (.seeking p n' sk')) := by
    intro n' sk' hseen
    exact .goto _ (by rw [hc]; rfl) (by rw [hc]; rfl) hseen (by simp) (.same (by rw [hc]; rfl) (by simp))
  have hdull : ∀ site, (tested cfg p n site false).map (s.goto l.thread) = some s' →
      Effect cfg s l s' := by
    intro site h
    obtain ⟨c, hc', rfl⟩ := Option.map_eq_some_iff.mp h
    rcases tested_spec hc' with ⟨n', sk', rfl, hseen⟩ | ⟨_, _, hb, -⟩
    · exact hidle n' sk' hseen
    · cases hb
  cases sk with
  | test site pc =>
    cases p with
    | work => exact hdull site h
    | barrier current g myPhase => exact hdull site h
    | wait current h' =>
      have hpc : pc ≠ .incomplete → (s.thread l.thread).ctl.seen = some h' := by
        intro hne
        simp [hc, Ctl.seen, hne]
      have hwait : (s.thread l.thread).ctl.awaited = some h' := by rw [hc]; rfl
      simp only [seek] at h
      split at h
      next pc' hr =>
        cases h
        exact .test h' pc _ hpc hwait (by rw [hc]; rfl) (by rw [hc]; rfl)
          (seen_of_unreturned hr rfl) (.same (by rw [hc]; rfl) (by simp))
      next b hr =>
        obtain ⟨c, hc', rfl⟩ := Option.map_eq_some_iff.mp h
        rcases tested_spec hc' with ⟨n', sk', rfl, hseen⟩ | ⟨_, _, rfl, hp, rfl⟩
        · exact .test h' pc _ hpc hwait (by rw [hc]; rfl) (by rw [hc]; rfl) (.inl hseen)
            (.same (by rw [hc]; rfl) (by simp))
        · cases hp
          exact .test h' pc _ hpc hwait (by rw [hc]; rfl) (by rw [hc]; rfl)
            (.inr ⟨rfl, by simp [hr]⟩)
            (.left rfl _ (by rw [hc]; rfl) (by simp [Point.current?]) (by simp))
  | visit k =>
    simp only [seek] at h
    split at h
    next hk =>
      split at h
      next htop =>
        split at h
        next r hget =>
          cases h
          exact .take p n k _ top r.1 r.2 hc (Nat.mod_lt _ (by omega)) hact hk rfl htop hget
        next hget =>
          cases h
          exact hidle n (.visit (k + 1)) (by cases p <;> rfl)
      next => cases h
    next =>
      cases h
      cases p with
      | barrier current g myPhase =>
        exact .goto _ (by rw [hc]; rfl) (by rw [hc]; rfl) rfl (by simp [missed])
          (.left rfl _ (by rw [hc]; rfl) (by simp [Point.current?]) (by simp [missed]))
      | work => exact hidle n _ rfl
      | wait => exact hidle n _ rfl

theorem took_effect {l : Label π} {p : Point π} {h h' : Handle} {current : Copy π}
    {pc : EventBase.TestPc} (hp : p = .wait current h')
    (hc : (s.thread l.thread).ctl = .took p h pc) {c : Ctl π}
    (hcase : (∃ pc', c = .took p h pc' ∧ (s.test h' pc).2 = .inl pc') ∨ c = .starting p h) :
    Effect cfg s l ((s.test h' pc).1.goto l.thread c) := by
  subst hp
  have hpc : pc ≠ .incomplete → (s.thread l.thread).ctl.seen = some h' := by
    intro hne
    simp [hc, Ctl.seen, hne]
  have hwait : (s.thread l.thread).ctl.awaited = some h' := by rw [hc]; rfl
  rcases hcase with ⟨pc', rfl, hr⟩ | rfl
  · exact .test h' pc _ hpc hwait (by rw [hc]; rfl) (by rw [hc]; rfl)
      (seen_of_unreturned hr rfl) (.same (by rw [hc]; rfl) (by simp))
  · exact .test h' pc _ hpc hwait (by rw [hc]; rfl) (by rw [hc]; rfl) (.inl rfl)
      (.same (by rw [hc]; rfl) (by simp))

theorem polling_effect {l : Label π} {h : Handle} {pc : EventBase.TestPc}
    (hc : (s.thread l.thread).ctl = .polling h pc) {c : Ctl π}
    (hcase : (∃ pc', c = .polling h pc' ∧ (s.test h pc).2 = .inl pc') ∨
      c = .leaving h ∧ (s.test h pc).2 = .inr true ∨ c = .polling h .incomplete) :
    Effect cfg s l ((s.test h pc).1.goto l.thread c) := by
  have hpc : pc ≠ .incomplete → (s.thread l.thread).ctl.seen = some h := by
    intro hne
    simp [hc, Ctl.seen, hne]
  have hwait : (s.thread l.thread).ctl.awaited = some h := by rw [hc]; rfl
  rcases hcase with ⟨pc', rfl, hr⟩ | ⟨rfl, hr⟩ | rfl
  · exact .test h pc _ hpc hwait (by rw [hc]; rfl) (by rw [hc]; rfl)
      (seen_of_unreturned hr rfl) (.same (by rw [hc]; rfl) (by simp))
  · exact .test h pc _ hpc hwait (by rw [hc]; rfl) (by rw [hc]; rfl) (.inr ⟨rfl, by simp [hr]⟩)
      (.same (by rw [hc]; rfl) (by simp))
  · exact .test h pc _ hpc hwait (by rw [hc]; rfl) (by rw [hc]; rfl) (.inl (by simp [Ctl.seen]))
      (.same (by rw [hc]; rfl) (by simp))

theorem tick_effect {l : Label π} {top : ℕ} (hact : l.act = .tick top)
    (h : tick cfg s l.thread top = some s') : Effect cfg s l s' := by
  unfold tick at h
  split at h
  next => cases h
  next h' q hc =>
    cases h
    exact .put h' q ⟨top, hact⟩ hc
  next h' pc hc =>
    simp only at h
    split at h
    next pc' hr =>
      cases h
      exact polling_effect hc (.inl ⟨pc', rfl, hr⟩)
    next hr =>
      cases h
      exact polling_effect hc (.inr (.inl ⟨rfl, hr⟩))
    next hr =>
      cases h
      exact polling_effect hc (.inr (.inr rfl))
  next p n sk hc => exact seek_effect hact hc h
  next p h' pc hc =>
    split at h
    next current h'' =>
      simp only at h
      split at h
      next pc' hr =>
        cases h
        exact took_effect rfl hc (.inl ⟨pc', rfl, hr⟩)
      next =>
        cases h
        exact took_effect rfl hc (.inr rfl)
    next =>
      cases h
      exact .goto _ (by rw [hc]; rfl) (by rw [hc]; rfl) rfl (by simp) (.same (by rw [hc]; rfl) (by simp))
  next p h' hc =>
    cases h
    exact .start p h' hc
  next f hc =>
    cases h
    exact .notify f hc
  next h' hc =>
    cases h
    exact .leave h' hc
  next g myPhase hc =>
    split at h
    next =>
      cases h
      exact .goto _ (by rw [hc]; rfl) (by rw [hc]; rfl) rfl (by simp) (.spin g myPhase hc rfl)
    next =>
      cases h
      exact .goto _ (by rw [hc]; rfl) (by rw [hc]; rfl) rfl (by simp) (.same (by rw [hc]; rfl) (by simp))

theorem barrier_effect {l : Label π} (hact : l.act = .barrier)
    (hc : (s.thread l.thread).ctl = .functor) (hf : (s.thread l.thread).frames ≠ [])
    (h : barrier s l.thread = some s') : Effect cfg s l s' := by
  unfold barrier at h
  split at h
  next => cases h
  next g hg =>
    simp only at h
    split at h
    next =>
      cases h
      refine .arrive g _ _ hact hc hf ?_
      split
      · exact .inr ⟨_, rfl⟩
      · exact .inl rfl
    next =>
      cases h
      exact .stay hact

theorem call_effect {l : Label π} (hc : (s.thread l.thread).ctl = .functor)
    (hle : l.thread ≤ cfg.numThreads) (h : call cfg s l.thread l.act = some s') :
    Effect cfg s l s' := by
  cases hact : l.act with
  | spawn h' attr g =>
    simp only [hact, call, Option.ite_none_right_eq_some, Option.some.injEq] at h
    obtain ⟨hq, rfl⟩ := h
    exact .spawn h' attr g _ hact hc hq rfl
  | wait h' =>
    simp only [hact, call, Option.ite_none_right_eq_some] at h
    obtain ⟨hn, h⟩ := h
    split at h
    next ht =>
      cases h
      exact .wait h' _ hact hc hn (.inl ⟨ht, rfl⟩)
    next ht =>
      cases h
      exact .wait h' _ hact hc hn (.inr ⟨by omega, rfl⟩)
  | barrier =>
    simp only [hact, call, Option.ite_none_right_eq_some] at h
    exact barrier_effect hact hc h.1 h.2
  | ret =>
    simp only [hact, call] at h
    split at h
    next => cases h
    next f rest hf =>
      cases h
      exact .ret f rest hact hc hf
  | tick top => simp [hact, call] at h

theorem step_effect {l : Label π} (h : step cfg s l = some s') :
    l.thread ≤ cfg.numThreads ∧ Effect cfg s l s' := by
  simp only [step, Option.ite_none_right_eq_some] at h
  obtain ⟨hle, h⟩ := h
  refine ⟨hle, ?_⟩
  split at h
  next top hact => exact tick_effect hact h
  next =>
    split at h
    next hc => exact call_effect hc hle h
    next => cases h

/-! ### What a step leaves alone -/

namespace Effect

variable {l : Label π}

theorem other (he : Effect cfg s l s') {t : ℕ} (ht : t ≠ l.thread) :
    s'.thread t = s.thread t := by
  cases he with
  | stay => rfl
  | leave h hc =>
    rw [leave_thread]
    exact Function.update_of_ne ht _ _
  | _ => exact Function.update_of_ne ht _ _

theorem toCopy (he : Effect cfg s l s') {h : Handle} (hact : ∀ attr g, l.act ≠ .spawn h attr g) :
    (s'.task h).toCopy = (s.task h).toCopy := by
  have hupdate : ∀ (h' : Handle) (x : Task π), (h = h' → x.toCopy = (s.task h').toCopy) →
      (Function.update s.task h' x h).toCopy = (s.task h).toCopy := by
    intro h' x hx
    by_cases hh : h = h'
    · subst hh
      simpa using hx rfl
    · rw [Function.update_of_ne hh]
  cases he with
  | spawn h' attr g q hact' =>
    refine hupdate h' _ ?_
    intro hh
    subst hh
    exact absurd hact' (hact attr g)
  | test h' pc c => exact hupdate h' _ fun _ => rfl
  | notify f => exact hupdate f.task _ fun _ => Task.notify_toCopy _
  | leave h' => rw [leave_task]
  | _ => rfl

/-- What a step does to the stack of its thread and to what the thread waits for. -/
inductive StackMove (s : State π) (l : Label π) (th th' : Thread π) : Prop
  | same (hf : th'.frames = th.frames) (ha : th'.ctl.awaited = th.ctl.awaited)
  | idle (hf : th'.frames = th.frames) (ha : th'.ctl.awaited = none)
  | wait (h : Handle) (hact : l.act = .wait h) (hn : (s.task h).attr.isNested)
      (hf : th'.frames = th.frames) (ha : th'.ctl.awaited = some h)
  | ret (f : Frame π) (hact : l.act = .ret) (hf : th.frames = f :: th'.frames)
      (ha : th'.ctl.awaited = f.point.awaited)
  | start (p : Point π) (h : Handle) (hf : th'.frames = ⟨h, p⟩ :: th.frames)
      (ha : th'.ctl.awaited = none) (hp : th.ctl.awaited = p.awaited)

theorem stackMove (he : Effect cfg s l s') :
    StackMove s l (s.thread l.thread) (s'.thread l.thread) := by
  cases he with
  | stay hact => exact .same rfl rfl
  | leave h hc =>
    rw [leave_thread, Function.update_self]
    exact .idle rfl rfl
  | spawn h attr g q hact hc =>
    simp only [State.spawn, State.enter, State.goto, State.setThread, Function.update_self]
    exact .idle rfl rfl
  | wait h c hact hc hn hcase =>
    simp only [State.goto, State.setThread, Function.update_self]
    refine .wait h hact hn rfl ?_
    rcases hcase with ⟨-, rfl⟩ | ⟨-, rfl⟩ <;> rfl
  | arrive g x c hact hc hf hcase =>
    simp only [State.goto, State.setGroup, State.setThread, Function.update_self]
    refine .idle rfl ?_
    rcases hcase with rfl | ⟨myPhase, rfl⟩ <;> rfl
  | ret f rest hact hc hf =>
    simp only [State.ret, State.enter, State.setThread, Function.update_self]
    exact .ret f hact hf rfl
  | put h q hact hc =>
    simp only [State.put, State.goto, State.setThread, Function.update_self]
    exact .idle rfl rfl
  | goto c htoken hawaited =>
    simp only [State.goto, State.setThread, Function.update_self]
    exact .same rfl hawaited
  | test h pc c hpc hwait htoken hawaited =>
    simp only [State.goto, State.test, State.setTask, State.setThread, Function.update_self]
    exact .same rfl hawaited
  | take p n k i top h rest hc =>
    simp only [State.take, State.goto, State.setThread, Function.update_self]
    refine .same rfl ?_
    rw [hc]
    cases p <;> rfl
  | start p h hc =>
    simp only [State.start, State.enter, State.setThread, Function.update_self]
    exact .start p h rfl rfl (by rw [hc]; rfl)
  | notify f hc =>
    simp only [State.notify, State.enter, State.setTask, State.setThread, Function.update_self]
    refine .same rfl ?_
    rw [hc]
    cases hp : f.point <;> simp [resume, getTask, Ctl.awaited, Ctl.point, Point.awaited, hp]

/-- A thread awaits what it has awaited before, unless it calls `wait`. -/
theorem awaited (he : Effect cfg s l s') {t : ℕ} {h : Handle}
    (hw : h ∈ (s'.thread t).awaited) :
    h ∈ (s.thread t).awaited ∨ t = l.thread ∧ l.act = .wait h ∧ (s.task h).attr.isNested := by
  by_cases ht : t = l.thread
  swap
  · rw [he.other ht] at hw
    exact .inl hw
  subst ht
  rw [Thread.mem_awaited] at hw ⊢
  cases he.stackMove with
  | same hf ha => exact .inl (by rwa [hf, ha] at hw)
  | idle hf ha =>
    rw [hf, ha] at hw
    exact .inl (.inr (hw.resolve_left (by simp)))
  | wait h' hact hn hf ha =>
    rw [hf, ha] at hw
    rcases hw with hw | hw
    · cases hw
      exact .inr ⟨rfl, hact, hn⟩
    · exact .inl (.inr hw)
  | ret f hact hf ha =>
    rw [ha] at hw
    rw [hf]
    left
    right
    rcases hw with hw | ⟨g, hg, hw⟩
    · exact ⟨f, by simp, hw⟩
    · exact ⟨g, List.mem_cons_of_mem f hg, hw⟩
  | start p h' hf ha hp =>
    rw [hf, ha] at hw
    left
    rcases hw with hw | ⟨g, hg, hw⟩
    · cases hw
    · rcases List.mem_cons.mp hg with rfl | hg
      · exact .inl (hp ▸ hw)
      · exact .inr ⟨g, hg, hw⟩

/-- Who waits for whom on a stack changes only by a call of `wait` of the task on top. -/
theorem waitPairs (he : Effect cfg s l s') {t : ℕ} {p h : Handle}
    (hw : (p, h) ∈ (s'.thread t).waitPairs) : (p, h) ∈ (s.thread t).waitPairs ∨
      t = l.thread ∧ l.act = .wait h ∧ (s.thread t).frames.head?.map (·.task) = some p := by
  by_cases ht : t = l.thread
  swap
  · rw [he.other ht] at hw
    exact .inl hw
  subst ht
  unfold Thread.waitPairs at hw ⊢
  cases he.stackMove with
  | same hf ha => exact .inl (by rwa [hf, ha] at hw)
  | idle hf ha =>
    rw [hf, ha] at hw
    exact .inl (mem_waitPairs_of_none hw)
  | wait h' hact hn hf ha =>
    rw [hf, ha] at hw
    rcases mem_waitPairs hw with ⟨hh, hp⟩ | hw
    · cases hh
      exact .inr ⟨rfl, hact, hp⟩
    · exact .inl (mem_waitPairs_of_none hw)
  | ret f hact hf ha =>
    rw [ha] at hw
    rw [hf]
    exact .inl (List.mem_append_right _ hw)
  | start q h' hf ha hp =>
    rw [hf, ha] at hw
    rw [hp]
    exact .inl hw

/-- A thread comes into `spawn_task` only by a call of it. -/
theorem ctl_spawning (he : Effect cfg s l s') {h : Handle} {q : ℕ}
    (hctl : (s'.thread l.thread).ctl = .spawning h q) : s' = s ∨
      ∃ attr g, l.act = .spawn h attr g ∧ s' = s.spawn l.thread h attr g q ∧
        q < cfg.numQueues ∧ q = if queueCurrentThread = attr.queueNumber
          then cfg.queueNumber l.thread else attr.queueNumber := by
  cases he with
  | stay hact => exact .inl rfl
  | spawn h' attr g q' hact hc hq hqn =>
    simp only [State.spawn, State.enter, State.goto, State.setThread, Function.update_self,
      Ctl.spawning.injEq] at hctl
    obtain ⟨rfl, rfl⟩ := hctl
    exact .inr ⟨attr, g, hact, rfl, hq, hqn⟩
  | wait h c hact hc hn hcase =>
    simp only [State.goto, State.setThread, Function.update_self] at hctl
    rcases hcase with ⟨-, rfl⟩ | ⟨-, rfl⟩ <;> cases hctl
  | arrive g x c hact hc hf hcase =>
    simp only [State.goto, State.setThread, Function.update_self] at hctl
    rcases hcase with rfl | ⟨myPhase, rfl⟩ <;> cases hctl
  | ret => simp [State.ret, State.enter, State.setThread] at hctl
  | put => simp [State.put, State.goto, State.setThread] at hctl
  | goto c htoken hawaited hseen hspawn =>
    simp only [State.goto, State.setThread, Function.update_self] at hctl
    exact absurd hctl (hspawn h q)
  | test h' pc c hpc hwait htoken hawaited =>
    simp only [State.goto, State.setThread, Function.update_self] at hctl
    rw [hctl, hwait] at hawaited
    cases hawaited
  | take p n k i top h' rest =>
    simp only [State.take, State.goto, State.setThread, Function.update_self] at hctl
    cases p <;> cases hctl
  | start => simp [State.start, State.enter, State.setThread] at hctl
  | notify f =>
    simp only [State.notify, State.enter, State.setThread, Function.update_self] at hctl
    cases hp : f.point <;> rw [hp] at hctl <;> cases hctl
  | leave => simp at hctl

/-- A thread comes before `notify` only from the functor on top of its stack. -/
theorem ctl_returned (he : Effect cfg s l s') {f : Frame π}
    (hctl : (s'.thread l.thread).ctl = .returned f) :
    (∃ f', (s.thread l.thread).ctl = .returned f' ∧ f'.task = f.task) ∨
      ∃ rest, l.act = .ret ∧ (s.thread l.thread).frames = f :: rest ∧
        s' = s.ret l.thread f rest := by
  have hsame : ∀ c : Ctl π, c.token = (s.thread l.thread).ctl.token → c = .returned f →
      ∃ f', (s.thread l.thread).ctl = .returned f' ∧ f'.task = f.task := by
    intro c htoken hc
    subst hc
    obtain ⟨f', hf'⟩ := Ctl.returned_of_token htoken.symm
    rw [hf'] at htoken
    simp only [Ctl.token, Option.some.injEq, Prod.mk.injEq, and_true] at htoken
    exact ⟨f', hf', htoken.symm⟩
  cases he with
  | stay hact => exact .inl ⟨f, hctl, rfl⟩
  | spawn => simp [State.spawn, State.enter, State.goto, State.setThread] at hctl
  | wait h c hact hc hn hcase =>
    simp only [State.goto, State.setThread, Function.update_self] at hctl
    rcases hcase with ⟨-, rfl⟩ | ⟨-, rfl⟩ <;> cases hctl
  | arrive g x c hact hc hf hcase =>
    simp only [State.goto, State.setThread, Function.update_self] at hctl
    rcases hcase with rfl | ⟨myPhase, rfl⟩ <;> cases hctl
  | ret f' rest hact hc hf =>
    simp only [State.ret, State.enter, State.setThread, Function.update_self,
      Ctl.returned.injEq] at hctl
    subst hctl
    exact .inr ⟨rest, hact, hf, rfl⟩
  | put => simp [State.put, State.goto, State.setThread] at hctl
  | goto c htoken =>
    simp only [State.goto, State.setThread, Function.update_self] at hctl
    exact .inl (hsame c htoken hctl)
  | test h' pc c hpc hwait htoken =>
    simp only [State.goto, State.setThread, Function.update_self] at hctl
    exact .inl (hsame c htoken hctl)
  | take p n k i top h' rest =>
    simp only [State.take, State.goto, State.setThread, Function.update_self] at hctl
    cases p <;> cases hctl
  | start => simp [State.start, State.enter, State.setThread] at hctl
  | notify f' =>
    simp only [State.notify, State.enter, State.setThread, Function.update_self] at hctl
    cases hp : f'.point <;> rw [hp] at hctl <;> cases hctl
  | leave => simp at hctl

/-- Parents and unjoined tasks change by a `put` and by the end of a wait. -/
theorem hist_cases (he : Effect cfg s l s') :
    (s'.hist.parent = s.hist.parent ∧ s'.hist.unjoined = s.hist.unjoined) ∨
      (∃ h q, (s.thread l.thread).ctl = .spawning h q ∧ s' = s.put cfg l.thread h q) ∨
      ∃ h, (s.thread l.thread).ctl = .leaving h ∧ s' = s.leave cfg l.thread h := by
  cases he with
  | put h q hact hc => exact .inr (.inl ⟨h, q, hc, rfl⟩)
  | leave h hc => exact .inr (.inr ⟨h, hc, rfl⟩)
  | _ => exact .inl ⟨rfl, rfl⟩

/-- Tasks are queued by `put`, and no completion is taken back. -/
theorem entries_cases (he : Effect cfg s l s') (h : Handle) :
    s.hist.entries h .complete ≤ s'.hist.entries h .complete ∧
      (s'.hist.entries h .queued = s.hist.entries h .queued ∨
        ∃ q, (s.thread l.thread).ctl = .spawning h q ∧ s' = s.put cfg l.thread h q) := by
  cases he with
  | put h' q hact hc =>
    by_cases hh : h' = h
    · subst hh
      exact ⟨by simp [State.put, State.goto, State.setThread, History.enter],
        .inr ⟨q, hc, rfl⟩⟩
    · simp [State.put, State.goto, State.setThread, History.enter, hh]
  | leave => simp
  | spawn => simp [State.spawn, State.enter, State.goto, State.setThread, State.setGroup,
      State.setTask, History.enter]
  | ret => simp [State.ret, State.enter, State.setThread, History.enter]
  | take => simp [State.take, State.goto, State.setThread, History.enter]
  | start => simp [State.start, State.enter, State.setThread, History.enter]
  | notify => simp [State.notify, State.enter, State.setThread, State.setTask, History.enter]
  | _ => exact ⟨Nat.le_refl _, .inl rfl⟩

end Effect

end PFunc.TaskManager
