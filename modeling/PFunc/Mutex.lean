import PFunc.LabelledRuns
import PFunc.Atomics
import Mathlib.Data.Fintype.Basic

/-!
# The futex mutex

`lock`, `trylock` and `unlock` run at the granularity of their atomic operations.
Threads enter a critical section by `lock` or by `while (!trylock());` and leave it
by `unlock`. `futex_wait` sleeps only if the word still holds the expected value
and may return spuriously; `futex_wake` with count one wakes one sleeper if there is any.
-/

namespace PFunc.Mutex

open LabelledRuns Atomics

def free : Word := 0
def locked : Word := 1
def lockedWithWaiters : Word := 2
def maxRelaxations : ℕ := 2 * 1024 * 1024

/-- Where a thread is. The constructors from `marking` to `retrying` are the
loop of `lock`, in the order of its statements. -/
inductive Pc where
  | outside
  | marking
  | spinning (i : ℕ)
  | waiting
  | asleep
  | retrying
  /-- between two calls of `trylock` in the loop around it -/
  | trying
  | inside
  /-- in `unlock`, between the exchange that returned `oldval` and `futex_wake` -/
  | waking (oldval : Word)
  deriving DecidableEq

/-- The first compare-and-swap of `lock`. -/
def lock (val : Word) : Word × Pc :=
  let r := compareAndSwap val locked free
  (r.1, if free ≠ r.2 then .marking else .inside)

/-- The next atomic operation of the loop of `lock`. -/
def lockLoop (val : Word) : Pc → Option (Word × Pc)
  | .marking =>
    let r := compareAndSwap val lockedWithWaiters locked
    some (r.1, if free ≠ r.2 then .spinning 0 else .retrying)
  | .spinning i =>
    some (val, if i < maxRelaxations ∧ lockedWithWaiters = val then .spinning (i + 1) else .waiting)
  | .waiting => some (val, if val = lockedWithWaiters then .asleep else .retrying)
  | .retrying =>
    let r := compareAndSwap val lockedWithWaiters free
    some (r.1, if free ≠ r.2 then .marking else .inside)
  | _ => none

def trylock (val : Word) : Word × Bool :=
  let r := compareAndSwap val locked free
  if free ≠ r.2 then (r.1, true) else (r.1, false)

/-- `while (!trylock());` -/
def trylockLoop (val : Word) : Word × Pc :=
  let r := trylock val
  (r.1, if r.2 then .inside else .trying)

def unlock (val : Word) : Word × Pc :=
  let r := fetchAndStore val free
  (r.1, if r.2.sle locked then .outside else .waking r.2)

structure State (n : ℕ) where
  val : Word
  pc : Fin n → Pc

inductive Act (n : ℕ) where
  | lock
  | trylock
  | unlock
  /-- the next atomic operation inside `lock` -/
  | tick
  /-- `futex_wait` returns although nobody woke the thread -/
  | spurious
  /-- `futex_wake (&val, 1)` wakes the given sleeper -/
  | wake (sleeper : Option (Fin n))
  deriving DecidableEq

structure Label (n : ℕ) where
  thread : Fin n
  act : Act n
  deriving DecidableEq

variable {n : ℕ}

def State.goto (s : State n) (t : Fin n) (r : Word × Pc) : State n :=
  ⟨r.1, Function.update s.pc t r.2⟩

@[simp] theorem State.goto_val (s : State n) (t : Fin n) (r : Word × Pc) :
    (s.goto t r).val = r.1 := rfl

@[simp] theorem State.goto_pc (s : State n) (t : Fin n) (r : Word × Pc) :
    (s.goto t r).pc = Function.update s.pc t r.2 := rfl

def step (s : State n) (l : Label n) : Option (State n) :=
  match s.pc l.thread, l.act with
  | .outside, .lock => some (s.goto l.thread (lock s.val))
  | .outside, .trylock => some (s.goto l.thread (trylockLoop s.val))
  | .trying, .trylock => some (s.goto l.thread (trylockLoop s.val))
  | .inside, .unlock => some (s.goto l.thread (unlock s.val))
  | pc, .tick => (lockLoop s.val pc).map (s.goto l.thread)
  | .asleep, .spurious => some (s.goto l.thread (s.val, .retrying))
  | .waking _, .wake (some u) =>
    if s.pc u = .asleep then
      some ((s.goto u (s.val, .retrying)).goto l.thread (s.val, .outside)) else none
  | .waking _, .wake none =>
    if ∀ u, s.pc u ≠ .asleep then some (s.goto l.thread (s.val, .outside)) else none
  | _, _ => none

def system (n : ℕ) : System (State n) (Label n) where
  initial := ⟨free, fun _ => .outside⟩
  step := step

/-- Awake inside the contended loop of `lock`. -/
def Pc.contending : Pc → Bool
  | .marking | .spinning _ | .waiting | .retrying => true
  | _ => false

/-- What one step of thread `t` can do to the word and the threads. -/
inductive Effect (s : State n) (t : Fin n) : State n → Prop
  /-- a free lock is taken; out of the contended loop it is marked at once -/
  | acquire (v : Word) (hval : s.val = free) (hv : v = locked ∨ v = lockedWithWaiters)
      (hpc : s.pc t = .outside ∨ s.pc t = .retrying ∧ v = lockedWithWaiters) :
      Effect s t (s.goto t (v, .inside))
  | contend (v : Word) (pc : Pc) (hv : v = s.val ∨ s.val = locked ∧ v = lockedWithWaiters)
      (hpc : s.pc t = .outside ∨ (s.pc t).contending) (hpc' : pc.contending) :
      Effect s t (s.goto t (v, pc))
  | sleep (hval : s.val = lockedWithWaiters) (hpc : s.pc t = .waiting) :
      Effect s t (s.goto t (s.val, .asleep))
  | spurious (hpc : s.pc t = .asleep) : Effect s t (s.goto t (s.val, .retrying))
  | release (pc : Pc) (hpc : s.pc t = .inside)
      (hpc' : pc = .outside ∧ s.val.sle locked ∨ pc = .waking s.val) :
      Effect s t (s.goto t (free, pc))
  | wakeOne (u : Fin n) (v : Word) (hpc : s.pc t = .waking v) (hu : s.pc u = .asleep) :
      Effect s t ((s.goto u (s.val, .retrying)).goto t (s.val, .outside))
  | wakeNone (v : Word) (hpc : s.pc t = .waking v) (hu : ∀ u, s.pc u ≠ .asleep) :
      Effect s t (s.goto t (s.val, .outside))

theorem lock_effect {s : State n} {t : Fin n} (hpc : s.pc t = .outside) :
    Effect s t (s.goto t (lock s.val)) := by
  by_cases hv : s.val = free
  · simpa [lock, hv, compareAndSwap] using Effect.acquire locked hv (.inl rfl) (.inl hpc)
  · simpa [lock, compareAndSwap, hv, Ne.symm hv] using
      Effect.contend s.val .marking (.inl rfl) (.inl hpc) rfl

theorem lockLoop_effect {s : State n} {t : Fin n} {r : Word × Pc}
    (hr : lockLoop s.val (s.pc t) = some r) : Effect s t (s.goto t r) := by
  cases hpc : s.pc t <;> simp only [hpc, lockLoop, Option.some.injEq, reduceCtorEq] at hr
  case marking =>
    have hc : s.pc t = .outside ∨ (s.pc t).contending := .inr (by simp [hpc, Pc.contending])
    subst hr
    by_cases hl : s.val = locked
    · have hne : free ≠ locked := by decide
      simpa [compareAndSwap, hl, hne] using
        Effect.contend lockedWithWaiters (.spinning 0) (.inr ⟨hl, rfl⟩) hc rfl
    · by_cases hf : free = s.val
      · simpa [compareAndSwap, hl, hf] using Effect.contend s.val .retrying (.inl rfl) hc rfl
      · simpa [compareAndSwap, hl, hf] using Effect.contend s.val (.spinning 0) (.inl rfl) hc rfl
  case spinning i =>
    have hc : s.pc t = .outside ∨ (s.pc t).contending := .inr (by simp [hpc, Pc.contending])
    subst hr
    split
    · exact .contend s.val _ (.inl rfl) hc rfl
    · exact .contend s.val _ (.inl rfl) hc rfl
  case waiting =>
    have hc : s.pc t = .outside ∨ (s.pc t).contending := .inr (by simp [hpc, Pc.contending])
    subst hr
    split
    · exact .sleep ‹_› hpc
    · exact .contend s.val _ (.inl rfl) hc rfl
  case retrying =>
    have hc : s.pc t = .outside ∨ (s.pc t).contending := .inr (by simp [hpc, Pc.contending])
    subst hr
    by_cases hf : s.val = free
    · simpa [compareAndSwap, hf] using
        Effect.acquire lockedWithWaiters hf (.inr rfl) (.inr ⟨hpc, rfl⟩)
    · simpa [compareAndSwap, hf, Ne.symm hf] using
        Effect.contend s.val .marking (.inl rfl) hc rfl

/-- Every step other than a call of `trylock` has one of the listed effects. -/
theorem step_effect {s s' : State n} {l : Label n} (hl : l.act ≠ .trylock)
    (hs : step s l = some s') : Effect s l.thread s' := by
  obtain ⟨t, a⟩ := l
  change step s ⟨t, a⟩ = some s' at hs
  cases a with
  | trylock => exact absurd rfl hl
  | tick =>
    have hm : (lockLoop s.val (s.pc t)).map (s.goto t) = some s' := by
      cases hpc : s.pc t <;> simpa [step, hpc] using hs
    obtain ⟨r, hr, rfl⟩ := Option.map_eq_some_iff.mp hm
    exact lockLoop_effect hr
  | lock =>
    cases hpc : s.pc t <;> simp only [step, hpc, Option.some.injEq, reduceCtorEq] at hs
    subst hs
    exact lock_effect hpc
  | unlock =>
    cases hpc : s.pc t <;> simp only [step, hpc, Option.some.injEq, reduceCtorEq] at hs
    subst hs
    refine .release _ hpc ?_
    by_cases h : s.val.sle locked <;> simp [fetchAndStore, h]
  | spurious =>
    cases hpc : s.pc t <;> simp only [step, hpc, Option.some.injEq, reduceCtorEq] at hs
    subst hs
    exact .spurious hpc
  | wake sleeper =>
    cases hpc : s.pc t <;> cases sleeper <;> simp only [step, hpc, reduceCtorEq] at hs
    case waking.none v =>
      split at hs
      · cases hs; exact .wakeNone v hpc ‹_›
      · cases hs
    case waking.some v u =>
      split at hs
      · cases hs; exact .wakeOne u v hpc ‹_›
      · cases hs

/-- At most one thread is inside the critical section. -/
def Exclusive (s : State n) : Prop := ∀ t u, s.pc t = .inside → s.pc u = .inside → t = u

/-- Somebody is responsible for the sleepers. -/
def Attended (s : State n) : Prop :=
  s.val = lockedWithWaiters ∨ (∃ u, s.pc u = .waking lockedWithWaiters) ∨
    ∃ u, (s.pc u).contending

structure Invariant (s : State n) : Prop where
  word : s.val = free ∨ s.val = locked ∨ s.val = lockedWithWaiters
  owner : s.val ≠ free ↔ ∃ t, s.pc t = .inside
  exclusive : Exclusive s
  attended : (∃ t, s.pc t = .asleep) → Attended s

theorem invariant_initial : Invariant (system n).initial where
  word := .inl rfl
  owner := by simp [system]
  exclusive := by simp [system, Exclusive]
  attended := by simp [system]

theorem Attended.of_contending {s : State n} {t : Fin n} (h : (s.pc t).contending) : Attended s :=
  .inr (.inr ⟨t, h⟩)

/-- Responsibility moves with a step of `t` unless `t` itself carried it. -/
theorem Attended.other {s : State n} {t : Fin n} {r : Word × Pc} (h : Attended s)
    (hval : s.val ≠ lockedWithWaiters) (hwake : s.pc t ≠ .waking lockedWithWaiters)
    (hcon : (s.pc t).contending = false) : Attended (s.goto t r) := by
  rcases h with h | ⟨u, hu⟩ | ⟨u, hu⟩
  · exact absurd h hval
  · have hne : u ≠ t := fun he => hwake (he ▸ hu)
    exact .inr (.inl ⟨u, by simpa [hne] using hu⟩)
  · have hne : u ≠ t := by rintro rfl; simp [hcon] at hu
    exact .inr (.inr ⟨u, by simpa [hne] using hu⟩)

theorem asleep_of_goto {s : State n} {t u : Fin n} {r : Word × Pc} (hr : r.2 ≠ .asleep)
    (hu : (s.goto t r).pc u = .asleep) : s.pc u = .asleep := by
  have hne : u ≠ t := by rintro rfl; simp [hr] at hu
  simpa [hne] using hu

theorem inside_of_goto {s : State n} {t u : Fin n} {r : Word × Pc} (hr : r.2 ≠ .inside)
    (hu : (s.goto t r).pc u = .inside) : s.pc u = .inside ∧ u ≠ t := by
  have hne : u ≠ t := by rintro rfl; simp [hr] at hu
  exact ⟨by simpa [hne] using hu, hne⟩

/-- Steps between program points outside the critical section that keep the lock taken or free. -/
theorem Invariant.goto {s : State n} (h : Invariant s) {t : Fin n} {v : Word} {pc : Pc}
    (hv : v = s.val ∨ s.val = locked ∧ v = lockedWithWaiters)
    (hpc : s.pc t ≠ .inside) (hpc' : pc ≠ .inside)
    (hat : (∃ u, (s.goto t (v, pc)).pc u = .asleep) → Attended (s.goto t (v, pc))) :
    Invariant (s.goto t (v, pc)) where
  word := by
    rcases hv with rfl | ⟨_, rfl⟩
    · exact h.word
    · exact .inr (.inr rfl)
  owner := by
    have hfree : v ≠ free ↔ s.val ≠ free := by
      rcases hv with rfl | ⟨hl, rfl⟩
      · rfl
      · rw [hl]; decide
    rw [State.goto_val, hfree, h.owner]
    constructor
    · rintro ⟨u, hu⟩
      have hne : u ≠ t := by rintro rfl; exact hpc hu
      exact ⟨u, by simpa [hne] using hu⟩
    · rintro ⟨u, hu⟩
      exact ⟨u, (inside_of_goto hpc' hu).1⟩
  exclusive := fun u u' hu hu' =>
    h.exclusive u u' (inside_of_goto hpc' hu).1 (inside_of_goto hpc' hu').1
  attended := hat

theorem contending_ne {pc : Pc} (h : pc.contending) : pc ≠ .inside ∧ pc ≠ .asleep := by
  cases pc <;> simp_all [Pc.contending]

theorem Effect.invariant {s s' : State n} {t : Fin n} (he : Effect s t s') (h : Invariant s) :
    Invariant s' := by
  cases he with
  | acquire v hval hv hpc =>
    have hnone : ∀ u, s.pc u ≠ .inside := fun u hu => h.owner.mpr ⟨u, hu⟩ hval
    have honly : ∀ u, (s.goto t (v, .inside)).pc u = .inside → u = t := by
      intro u hu
      by_contra hne
      exact hnone u (by simpa [hne] using hu)
    refine ⟨.inr hv, ?_, fun u u' hu hu' => (honly u hu).trans (honly u' hu').symm, ?_⟩
    · have hne : v ≠ free := by rcases hv with rfl | rfl <;> decide
      exact ⟨fun _ => ⟨t, by simp⟩, fun _ => hne⟩
    · rintro ⟨u, hu⟩
      have hat := h.attended ⟨u, asleep_of_goto (by simp) hu⟩
      rcases hpc with hpc | ⟨_, rfl⟩
      · exact hat.other (by rw [hval]; decide) (by simp [hpc]) (by simp [hpc, Pc.contending])
      · exact .inl rfl
  | contend v pc hv hpc hpc' =>
    have hin : s.pc t ≠ .inside := by
      rcases hpc with hpc | hpc
      · simp [hpc]
      · exact (contending_ne hpc).1
    exact h.goto hv hin (contending_ne hpc').1 fun _ => .of_contending (t := t) (by simpa using hpc')
  | sleep hval hpc => exact h.goto (.inl rfl) (by simp [hpc]) (by simp) fun _ => .inl hval
  | spurious hpc =>
    exact h.goto (.inl rfl) (by simp [hpc]) (by simp) fun _ =>
      .of_contending (t := t) (by simp [Pc.contending])
  | release pc hpc hpc' =>
    have hne : pc ≠ .inside ∧ pc ≠ .asleep := by rcases hpc' with ⟨rfl, _⟩ | rfl <;> simp
    have hnone : ∀ u, (s.goto t (free, pc)).pc u ≠ .inside := by
      intro u hu
      obtain ⟨hu, hut⟩ := inside_of_goto hne.1 hu
      exact hut (h.exclusive u t hu hpc)
    refine ⟨.inl rfl, by simpa using hnone, fun u _ hu => absurd hu (hnone u), ?_⟩
    rintro ⟨u, hu⟩
    have hat := h.attended ⟨u, asleep_of_goto hne.2 hu⟩
    by_cases hval : s.val = lockedWithWaiters
    · -- the exchange returned the mark, so the wake is still to come
      have hw : pc = .waking lockedWithWaiters := by
        rcases hpc' with ⟨_, hle⟩ | rfl
        · rw [hval] at hle; exact absurd hle (by decide)
        · rw [hval]
      exact .inr (.inl ⟨t, by simpa using hw⟩)
    · exact hat.other hval (by simp [hpc]) (by simp [hpc, Pc.contending])
  | wakeOne u v hpc hu =>
    have hne : u ≠ t := by rintro rfl; simp [hpc] at hu
    have hmid : Invariant (s.goto u (s.val, .retrying)) :=
      h.goto (.inl rfl) (by simp [hu]) (by simp) fun _ =>
        .of_contending (t := u) (by simp [Pc.contending])
    exact hmid.goto (.inl rfl) (by simp [Ne.symm hne, hpc]) (by simp) fun _ =>
      .of_contending (t := u) (by simp [hne, Pc.contending])
  | wakeNone v hpc hu =>
    refine h.goto (.inl rfl) (by simp [hpc]) (by simp) ?_
    rintro ⟨u, hu'⟩
    exact absurd (asleep_of_goto (by simp) hu') (hu u)

def NoTrylock (_ : State n) (l : Label n) : Prop := l.act ≠ .trylock

instance (s : State n) (l : Label n) : Decidable (NoTrylock s l) :=
  inferInstanceAs (Decidable (_ ≠ _))

theorem invariant_reachable {s : State n} (h : (system n).Reachable NoTrylock s) : Invariant s :=
  h.invariant invariant_initial fun _ _ _ hi hd hs => (step_effect hd hs).invariant hi

/-- Threads that only use `lock` and `unlock` exclude each other, and a sleeper is
never left without a waiter mark, a pending wake or an awake contender. -/
theorem lock_unlock_safe {s : State n} (h : (system n).Reachable NoTrylock s) :
    (∀ t u, s.pc t = .inside → s.pc u = .inside → t = u) ∧
    ((∃ t, s.pc t = .asleep) → s.val = lockedWithWaiters ∨
      (∃ u, s.pc u = .waking lockedWithWaiters) ∨ ∃ u, (s.pc u).contending) ∧
    ¬(s.val = free ∧ (∃ t, s.pc t = .asleep) ∧
      ∀ u, s.pc u = .asleep ∨ s.pc u = .outside ∨ s.pc u = .inside) := by
  have hi := invariant_reachable h
  refine ⟨hi.exclusive, hi.attended, ?_⟩
  rintro ⟨hval, hsleep, hrest⟩
  rcases hi.attended hsleep with h | ⟨u, hu⟩ | ⟨u, hu⟩
  · rw [hval] at h; exact absurd h (by decide)
  · rcases hrest u with h | h | h <;> simp [h] at hu
  · rcases hrest u with h | h | h <;> simp [h, Pc.contending] at hu

/-- Thread 1 sleeps while thread 2 is inside and thread 0 has marked the word. -/
def sleepingRun : List (Label 3) :=
  [⟨0, .lock⟩, ⟨1, .lock⟩, ⟨1, .tick⟩, ⟨0, .unlock⟩, ⟨1, .tick⟩, ⟨2, .lock⟩,
    ⟨0, .wake none⟩, ⟨0, .lock⟩, ⟨0, .tick⟩, ⟨1, .tick⟩]

theorem lock_unlock_safe_sleeping :
    ((system 3).final sleepingRun).pc 1 = .asleep ∧ Attended ((system 3).final sleepingRun) :=
  ⟨by decide, (lock_unlock_safe (System.reachable_final (by decide))).2.1 ⟨1, by decide⟩⟩

/-- `trylock` reports failure only if it left the word alone. -/
def FailsCleanly (s : State n) (l : Label n) (s' : State n) : Prop :=
  l.act = .trylock → s'.pc l.thread = .trying → s'.val = s.val

def Safe (s : State n) (l : Label n) (s' : State n) : Prop :=
  Exclusive s' ∧ FailsCleanly s l s'

theorem trylock_step {s s' : State n} {l : Label n} (hl : l.act = .trylock)
    (hs : step s l = some s') :
    s.pc l.thread ≠ .inside ∧ s' = s.goto l.thread (trylockLoop s.val) := by
  obtain ⟨t, a⟩ := l
  subst hl
  cases hpc : s.pc t <;> simp_all [step]

/-- The result of `trylock` is inverted: on a free lock it takes it and answers
`false`, on a taken lock it answers `true`. -/
theorem trylock_violates {s s' : State n} {l : Label n} (h : Invariant s) (hl : l.act = .trylock)
    (hs : step s l = some s') : ¬Safe s l s' := by
  obtain ⟨hpc, rfl⟩ := trylock_step hl hs
  rintro ⟨hex, hclean⟩
  by_cases hval : s.val = free
  · have hr : trylockLoop s.val = (locked, .trying) := by rw [hval]; rfl
    have hkeep := hclean hl (by simp [hr])
    rw [State.goto_val, hr, hval] at hkeep
    exact absurd hkeep (by decide)
  · obtain ⟨u, hu⟩ := h.owner.mp hval
    have hne : u ≠ l.thread := by rintro rfl; exact hpc hu
    have hr : (trylockLoop s.val).2 = .inside := by simp [trylockLoop, trylock, Ne.symm hval]
    exact hne (hex u l.thread (by simpa [hne] using hu) (by simp [hr]))

/-- The runs in which threads exclude each other and a failed `trylock` changes
nothing are exactly those in which `trylock` is never called. -/
theorem safe_iff_no_trylock (n : ℕ) (as : List (Label n)) :
    (system n).Along Safe (system n).initial as ↔
      ((system n).run (system n).initial as).isSome ∧ ∀ l ∈ as, l.act ≠ .trylock := by
  rw [← System.along_labels]
  refine System.along_congr (I := Invariant) ?_ invariant_initial as
  intro s l s' hi hs
  by_cases hl : l.act = .trylock
  · exact ⟨iff_of_false (trylock_violates hi hl hs) (not_not_intro hl), fun hn => absurd hl hn⟩
  · have hi' := (step_effect hl hs).invariant hi
    exact ⟨iff_of_true ⟨hi'.exclusive, fun ht => absurd ht hl⟩ hl, fun _ => hi'⟩

/-- Thread 0 holds the lock; `trylock` of thread 1 answers `true` and lets it in.
On the free lock `trylock` answers `false` and leaves the lock taken. -/
theorem trylock_inverted :
    ((system 2).final [⟨0, .lock⟩, ⟨1, .trylock⟩]).pc 0 = .inside ∧
    ((system 2).final [⟨0, .lock⟩, ⟨1, .trylock⟩]).pc 1 = .inside ∧
    trylock free = (locked, false) := by decide

end PFunc.Mutex
