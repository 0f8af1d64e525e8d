import PFunc.LabelledRuns
import PFunc.AtomicsBackends

/-!
# Concurrent calls of the generic atomic operations

Each operation locks a mutex of its own kind and then reads and writes the location in separate
accesses, so a call excludes the calls of its own kind alone. If nobody else changes the location
between the first and the last access of a call, the call takes effect at its last access.
-/

namespace PFunc.Atomics.Generic

open LabelledRuns

variable {n w : ℕ}

/-- Which of the static mutexes an operation locks. -/
inductive Kind where
  | compareAndSwap
  | fetchAndStore
  | fetchAndAdd
  deriving DecidableEq

def kind : Op w → Kind
  | .compareAndSwap _ _ => .compareAndSwap
  | .fetchAndStore _ => .fetchAndStore
  | .fetchAndAdd _ => .fetchAndAdd

/-- Where a call is, before each access to the location or to its mutex. -/
inductive Pc (w : ℕ) where
  | lock
  /-- `*cast_loc == comprnd` -/
  | compare
  /-- `*cast_loc = exchg` -/
  | exchange
  /-- `result = *cast_loc`, the comparand not found -/
  | reload
  /-- `result = *cast_loc` -/
  | fetch
  /-- `*cast_loc = new_val` -/
  | store (result : BitVec w)
  /-- the read of `*cast_loc += addend` -/
  | addRead (result : BitVec w)
  /-- the write of `*cast_loc += addend` -/
  | addWrite (result old : BitVec w)
  | unlock (result : BitVec w)
  | returned (result : BitVec w)
  deriving DecidableEq

namespace Pc

/-- The value to be returned, after the last access to the location. -/
def result : Pc w → Option (BitVec w)
  | .unlock r => some r
  | .returned r => some r
  | _ => none

/-- Between the first and the last access to the location. -/
def Between : Pc w → Prop
  | .exchange | .reload | .store _ | .addRead _ | .addWrite _ _ => True
  | _ => False

instance (pc : Pc w) : Decidable pc.Between := by
  cases pc <;> unfold Between <;> infer_instance

/-- Between `pthread_mutex_lock` and `pthread_mutex_unlock`. -/
def Inside : Pc w → Prop
  | .lock | .returned _ => False
  | _ => True

theorem Between.inside {pc : Pc w} (h : pc.Between) : pc.Inside := by
  cases pc <;> trivial

/-- What a call between its accesses has read is what the location holds. -/
def Fresh (mem : BitVec w) : Pc w → Op w → Prop
  | .exchange, .compareAndSwap _ comprnd => mem = comprnd
  | .reload, .compareAndSwap _ comprnd => mem ≠ comprnd
  | .store r, _ => r = mem
  | .addRead r, _ => r = mem
  | .addWrite r old, _ => r = mem ∧ old = mem
  | _, _ => True

theorem fresh_of_not_between {mem : BitVec w} {pc : Pc w} {op : Op w} (h : ¬pc.Between) :
    pc.Fresh mem op := by
  cases pc <;> first | trivial | exact absurd trivial h

end Pc

/-- The location, the mutexes with their holders, and the calls. -/
structure State (n w : ℕ) where
  mem : BitVec w
  lck : Kind → Option (Fin n)
  pc : Fin n → Pc w

namespace State

def goto (s : State n w) (t : Fin n) (pc : Pc w) : State n w :=
  { s with pc := Function.update s.pc t pc }

def write (s : State n w) (t : Fin n) (v : BitVec w) (pc : Pc w) : State n w :=
  { s with mem := v, pc := Function.update s.pc t pc }

def setLock (s : State n w) (k : Kind) (holder : Option (Fin n)) (t : Fin n) (pc : Pc w) :
    State n w :=
  { s with lck := Function.update s.lck k holder, pc := Function.update s.pc t pc }

end State

variable (ops : Fin n → Op w)

/-- After `pthread_mutex_lock`. -/
def first : Op w → Pc w
  | .compareAndSwap _ _ => .compare
  | _ => .fetch

/-- The next access of thread `t`, whose one call is `ops t`. -/
def step (s : State n w) (t : Fin n) : Option (State n w) :=
  match s.pc t, ops t with
  | .lock, op =>
    if s.lck (kind op) = none then some (s.setLock (kind op) (some t) t (first op)) else none
  | .compare, .compareAndSwap _ comprnd =>
    some (s.goto t (if s.mem = comprnd then .exchange else .reload))
  | .exchange, .compareAndSwap exchg _ => some (s.write t exchg (.unlock exchg))
  | .reload, .compareAndSwap _ _ => some (s.goto t (.unlock s.mem))
  | .fetch, .fetchAndStore _ => some (s.goto t (.store s.mem))
  | .store r, .fetchAndStore newVal => some (s.write t newVal (.unlock r))
  | .fetch, .fetchAndAdd _ => some (s.goto t (.addRead s.mem))
  | .addRead r, .fetchAndAdd _ => some (s.goto t (.addWrite r s.mem))
  | .addWrite r old, .fetchAndAdd addend => some (s.write t (old + addend) (.unlock r))
  | .unlock r, op => some (s.setLock (kind op) none t (.returned r))
  | _, _ => none

def system (mem : BitVec w) : System (State n w) (Fin n) where
  initial := ⟨mem, fun _ => none, fun _ => .lock⟩
  step := step ops

/-- What the next access of a thread writes. -/
def written (s : State n w) (t : Fin n) : Option (BitVec w) :=
  match s.pc t, ops t with
  | .exchange, .compareAndSwap exchg _ => some exchg
  | .store _, .fetchAndStore newVal => some newVal
  | .addWrite _ old, .fetchAndAdd addend => some (old + addend)
  | _, _ => none

/-- The step does not change the location while another call is between its accesses. -/
def Undisturbed (s : State n w) (t : Fin n) : Prop :=
  match written ops s t with
  | some v => v ≠ s.mem → ∀ u ≠ t, ¬(s.pc u).Between
  | none => True

instance (s : State n w) (t : Fin n) : Decidable (Undisturbed ops s t) := by
  unfold Undisturbed
  split <;> infer_instance

/-! ### Sequential executions -/

/-- The calls one after the other: the value left and what each call returns. -/
def sequential : List (Fin n) → BitVec w → BitVec w × List (Fin n × BitVec w)
  | [], mem => (mem, [])
  | t :: ts, mem =>
    let r := (ops t).run .generic mem
    let r' := sequential ts r.1
    (r'.1, (t, r.2) :: r'.2)

/-- Once all calls have returned, they have done what some sequential execution does. -/
def Atomic (mem : BitVec w) (s : State n w) : Prop :=
  (∀ t, ∃ v, s.pc t = .returned v) → ∃ order : List (Fin n), order.Nodup ∧ (∀ t, t ∈ order) ∧
    (sequential ops order mem).1 = s.mem ∧
    ∀ x ∈ (sequential ops order mem).2, s.pc x.1 = .returned x.2

variable {ops} {mem : BitVec w} {s s' : State n w} {t : Fin n} {order : List (Fin n)}

theorem sequential_concat (ts : List (Fin n)) (t : Fin n) (mem : BitVec w) :
    sequential ops (ts ++ [t]) mem =
      (((ops t).run .generic (sequential ops ts mem).1).1,
        (sequential ops ts mem).2 ++ [(t, ((ops t).run .generic (sequential ops ts mem).1).2)]) := by
  induction ts generalizing mem with
  | nil => rfl
  | cons u ts ih =>
    simp only [List.cons_append, sequential, ih]

/-- What one access can do. -/
inductive Effect (ops : Fin n → Op w) (s : State n w) (t : Fin n) : State n w → Prop
  | acquire (h : s.pc t = .lock) (hfree : s.lck (kind (ops t)) = none) :
      Effect ops s t (s.setLock (kind (ops t)) (some t) t (first (ops t)))
  | release {r : BitVec w} (h : s.pc t = .unlock r) :
      Effect ops s t (s.setLock (kind (ops t)) none t (.returned r))
  | read {pc : Pc w} (hin : (s.pc t).Inside) (h : (s.pc t).result = none) (hpc : pc.result = none)
      (hfresh : (s.pc t).Fresh s.mem (ops t) → pc.Fresh s.mem (ops t)) :
      Effect ops s t (s.goto t pc)
  | last {v r : BitVec w} (hin : (s.pc t).Inside) (h : (s.pc t).result = none)
      (hrun : (s.pc t).Fresh s.mem (ops t) → (ops t).run .generic s.mem = (v, r))
      (hwritten : v = s.mem ∨ written ops s t = some v) :
      Effect ops s t (s.write t v (.unlock r))

theorem step_effect (hs : step ops s t = some s') : Effect ops s t s' := by
  unfold step at hs
  split at hs
  next hpc =>
    simp only [Option.ite_none_right_eq_some, Option.some.injEq] at hs
    obtain ⟨hfree, rfl⟩ := hs
    exact .acquire hpc hfree
  next hpc hop =>
    cases hs
    refine .read (by rw [hpc]; trivial) (by rw [hpc]; rfl) (by split <;> rfl) ?_
    intro _
    rw [hop]
    split
    · assumption
    · assumption
  next hpc hop =>
    cases hs
    refine .last (by rw [hpc]; trivial) (by rw [hpc]; rfl) ?_ (.inr (by simp [written, hpc, hop]))
    intro hfresh
    rw [hpc, hop] at hfresh
    have hfound : s.mem = _ := hfresh
    rw [hop, hfound]
    simp [Op.run, Backend.compareAndSwap]
  next hpc hop =>
    cases hs
    refine .last (v := s.mem) (by rw [hpc]; trivial) (by rw [hpc]; rfl) ?_ (.inl rfl)
    intro hfresh
    rw [hpc, hop] at hfresh
    have hfound : s.mem ≠ _ := hfresh
    rw [hop]
    simp [Op.run, Backend.compareAndSwap, hfound]
  next hpc hop =>
    cases hs
    exact .read (by rw [hpc]; trivial) (by rw [hpc]; rfl) rfl fun _ => rfl
  next hpc hop =>
    cases hs
    refine .last (by rw [hpc]; trivial) (by rw [hpc]; rfl) ?_ (.inr (by simp [written, hpc, hop]))
    intro hfresh
    rw [hpc, hop] at hfresh
    have hread : _ = s.mem := hfresh
    rw [hop, hread]
    rfl
  next hpc hop =>
    cases hs
    exact .read (by rw [hpc]; trivial) (by rw [hpc]; rfl) rfl fun _ => rfl
  next hpc hop =>
    cases hs
    refine .read (by rw [hpc]; trivial) (by rw [hpc]; rfl) rfl ?_
    intro hfresh
    rw [hpc, hop] at hfresh
    exact ⟨hfresh, rfl⟩
  next hpc hop =>
    cases hs
    refine .last (by rw [hpc]; trivial) (by rw [hpc]; rfl) ?_ (.inr (by simp [written, hpc, hop]))
    intro hfresh
    rw [hpc, hop] at hfresh
    obtain ⟨hread, hold⟩ := hfresh
    rw [hop, hread, hold]
    rfl
  next hpc =>
    cases hs
    exact .release hpc
  next => cases hs

/-- The calls that have made their last access, in this order, have done so far what their
sequential execution does, and the others have read what the location still holds. -/
structure Linear (ops : Fin n → Op w) (mem : BitVec w) (s : State n w) (order : List (Fin n)) :
    Prop where
  nodup : order.Nodup
  done : ∀ t, t ∈ order ↔ (s.pc t).result ≠ none
  memory : (sequential ops order mem).1 = s.mem
  results : ∀ x ∈ (sequential ops order mem).2, (s.pc x.1).result = some x.2
  fresh : ∀ t, (s.pc t).Fresh s.mem (ops t)

theorem mem_of_sequential {x : Fin n × BitVec w} {ts : List (Fin n)} {mem : BitVec w}
    (hx : x ∈ (sequential ops ts mem).2) : x.1 ∈ ts := by
  induction ts generalizing mem with
  | nil => cases hx
  | cons t ts ih =>
    rcases List.mem_cons.mp hx with rfl | hx
    · simp
    · exact List.mem_cons_of_mem t (ih hx)

namespace Linear

/-- A call moves on, and the location stays as it is. -/
theorem move (h : Linear ops mem s order) {lck : Kind → Option (Fin n)} {pc : Pc w}
    (hresult : pc.result = (s.pc t).result) (hfresh : pc.Fresh s.mem (ops t)) :
    Linear ops mem ⟨s.mem, lck, Function.update s.pc t pc⟩ order := by
  have hsame : ∀ u, (Function.update s.pc t pc u).result = (s.pc u).result := by
    intro u
    by_cases hu : u = t
    · subst hu
      simpa using hresult
    · rw [Function.update_of_ne hu]
  refine ⟨h.nodup, ?_, h.memory, ?_, ?_⟩
  · intro u
    rw [hsame]
    exact h.done u
  · intro x hx
    rw [hsame]
    exact h.results x hx
  · intro u
    by_cases hu : u = t
    · subst hu
      simpa using hfresh
    · simpa [hu] using h.fresh u

/-- A call makes its last access, which has the effect and the result of the whole call. -/
theorem finish (h : Linear ops mem s order) {v r : BitVec w} (hpc : (s.pc t).result = none)
    (hrun : (ops t).run .generic s.mem = (v, r))
    (hother : v ≠ s.mem → ∀ u ≠ t, ¬(s.pc u).Between) :
    Linear ops mem (s.write t v (.unlock r)) (order ++ [t]) := by
  have hnew : t ∉ order := by
    rw [h.done t, hpc]
    simp
  have hseq : sequential ops (order ++ [t]) mem = _ := sequential_concat order t mem
  rw [h.memory, hrun] at hseq
  refine ⟨?_, ?_, ?_, ?_, ?_⟩
  · exact List.nodup_append.mpr ⟨h.nodup, by simp, by
      intro a ha b hb hab
      rw [List.mem_singleton] at hb
      exact hnew (hb ▸ hab ▸ ha)⟩
  · intro u
    by_cases hu : u = t
    · subst hu
      simp [State.write, Pc.result]
    · simpa [State.write, hu] using h.done u
  · rw [hseq]
    rfl
  · intro x hx
    rw [hseq] at hx
    rcases List.mem_append.mp hx with hx | hx
    · have hne : x.1 ≠ t := by
        intro he
        exact hnew (he ▸ mem_of_sequential hx)
      simpa [State.write, hne] using h.results x hx
    · rw [List.mem_singleton] at hx
      subst hx
      simp [State.write, Pc.result]
  · intro u
    by_cases hu : u = t
    · subst hu
      simp [State.write, Pc.Fresh]
    · simp only [State.write, Function.update_of_ne hu]
      by_cases hv : v = s.mem
      · rw [hv]
        exact h.fresh u
      · exact Pc.fresh_of_not_between (hother hv u hu)

end Linear

/-! ### Runs -/

theorem first_fresh (mem : BitVec w) (op : Op w) : (first op).Fresh mem op := by
  cases op <;> trivial

theorem step_linear (h : Linear ops mem s order) (hd : Undisturbed ops s t)
    (hs : step ops s t = some s') : ∃ order', Linear ops mem s' order' := by
  have hfresh := h.fresh t
  unfold Undisturbed at hd
  cases step_effect hs with
  | acquire hpc _ =>
    refine ⟨order, h.move ?_ (first_fresh _ _)⟩
    rw [hpc]
    cases ops t <;> rfl
  | release hpc => exact ⟨order, h.move (by rw [hpc]; rfl) trivial⟩
  | read _ hnone hpc hread => exact ⟨order, h.move (by rw [hpc, hnone]) (hread hfresh)⟩
  | last _ hnone hrun hwritten =>
    refine ⟨_, h.finish hnone (hrun hfresh) ?_⟩
    intro hne
    rw [hwritten.resolve_left hne] at hd
    exact hd hne

theorem linear_initial : Linear ops mem (system ops mem).initial [] where
  nodup := List.nodup_nil
  done := by simp [system, Pc.result]
  memory := rfl
  results := by simp [sequential]
  fresh := by simp [system, Pc.Fresh]

theorem linear_reachable (hr : (system ops mem).Reachable (Undisturbed ops) s) :
    ∃ order, Linear ops mem s order :=
  hr.invariant (I := fun s => ∃ order, Linear ops mem s order)
    ⟨[], linear_initial⟩ fun _ _ _ h hd hs => step_linear h.choose_spec hd hs

theorem Linear.atomic (h : Linear ops mem s order) : Atomic ops mem s := by
  intro hall
  refine ⟨order, h.nodup, ?_, h.memory, ?_⟩
  · intro t
    obtain ⟨v, hv⟩ := hall t
    rw [h.done t, hv]
    simp [Pc.result]
  · intro x hx
    obtain ⟨v, hv⟩ := hall x.1
    have hresult := h.results x hx
    rw [hv] at hresult
    cases hresult
    exact hv

/-- In a run in which nobody changes the location between the accesses of another call, the
calls are atomic. -/
theorem atomic_of_undisturbed (hr : (system ops mem).Reachable (Undisturbed ops) s) :
    Atomic ops mem s := by
  obtain ⟨order, h⟩ := linear_reachable hr
  exact h.atomic

/-! ### Calls of one operation -/

/-- A call inside its operation's mutex holds it. -/
def Holds (ops : Fin n → Op w) (s : State n w) : Prop :=
  ∀ t, (s.pc t).Inside → s.lck (kind (ops t)) = some t

/-- A call inside moves on and stays inside. -/
theorem Holds.move (h : Holds ops s) {v : BitVec w} {pc : Pc w} (hpc : (s.pc t).Inside) :
    Holds ops ⟨v, s.lck, Function.update s.pc t pc⟩ := by
  intro u hu
  by_cases hut : u = t
  · subst hut
    exact h u hpc
  · exact h u (by simpa [hut] using hu)

theorem Holds.acquire (h : Holds ops s) (hfree : s.lck (kind (ops t)) = none) (pc : Pc w) :
    Holds ops (s.setLock (kind (ops t)) (some t) t pc) := by
  intro u hu
  by_cases hut : u = t
  · subst hut
    simp [State.setLock]
  · have hheld := h u (by simpa [State.setLock, hut] using hu)
    have hkind : kind (ops u) ≠ kind (ops t) := by
      intro he
      rw [he, hfree] at hheld
      cases hheld
    simpa [State.setLock, hkind] using hheld

theorem Holds.release (h : Holds ops s) (hpc : (s.pc t).Inside) (r : BitVec w) :
    Holds ops (s.setLock (kind (ops t)) none t (.returned r)) := by
  intro u hu
  have hut : u ≠ t := by
    intro he
    subst he
    simp [State.setLock, Pc.Inside] at hu
  have hheld := h u (by simpa [State.setLock, hut] using hu)
  have hkind : kind (ops u) ≠ kind (ops t) := by
    intro he
    rw [he, h t hpc] at hheld
    exact hut (Option.some.inj hheld).symm
  simpa [State.setLock, hkind] using hheld

theorem step_holds (h : Holds ops s) (hs : step ops s t = some s') : Holds ops s' := by
  cases step_effect hs with
  | acquire _ hfree => exact h.acquire hfree _
  | release hpc => exact h.release (by rw [hpc]; trivial) _
  | read hin => exact h.move hin
  | last hin => exact h.move hin

theorem inside_of_written {v : BitVec w} (hv : written ops s t = some v) : (s.pc t).Inside := by
  unfold written at hv
  split at hv
  next h _ => rw [h]; trivial
  next h _ => rw [h]; trivial
  next h _ => rw [h]; trivial
  next => cases hv

/-- Calls of one operation exclude each other, so they are atomic in every run. -/
theorem atomic_of_one_kind (hkind : ∀ t u, kind (ops t) = kind (ops u))
    (hr : (system ops mem).Reachable (fun _ _ => True) s) : Atomic ops mem s := by
  have hboth : (system ops mem).Reachable (Undisturbed ops) s ∧ Holds ops s := by
    refine hr.invariant (I := fun s => (system ops mem).Reachable (Undisturbed ops) s ∧
      Holds ops s) ⟨.initial, ?_⟩ ?_
    · intro t ht
      exact absurd ht id
    · intro s t s' h _ hs
      refine ⟨h.1.step ?_ hs, step_holds h.2 hs⟩
      unfold Undisturbed
      cases hv : written ops s t with
      | none => trivial
      | some v =>
        intro _ u hut hu
        have hheld := h.2 u hu.inside
        rw [hkind u t, h.2 t (inside_of_written hv)] at hheld
        exact hut (Option.some.inj hheld).symm
  obtain ⟨order, h⟩ := linear_reachable hboth.1
  exact h.atomic

/-! ### Two operations -/

/-- Thread 0 adds 1 and thread 1 swaps 5 for 0. -/
def mixedOps (t : Fin 2) : Op 32 := if t.val = 0 then .fetchAndAdd 1 else .compareAndSwap 5 0

/-- The swap lies between the lock of the addition and its first read. -/
theorem atomic_mixedOps : Atomic mixedOps 0
    ((system mixedOps 0).final [0, 1, 1, 1, 1, 0, 0, 0, 0]) :=
  atomic_of_undisturbed (System.reachable_final (by decide))

/-- A swap `u` lies between the two reads of an addition `t`, which returns 0 and adds to 5. -/
def tornRun (t u : Fin 2) : List (Fin 2) := [t, t, u, u, u, u, t, t, t]

theorem not_atomic_tornRun :
    (system mixedOps 0).Reachable (fun _ _ => True) ((system mixedOps 0).final (tornRun 0 1)) ∧
      ((system mixedOps 0).final (tornRun 0 1)).pc 0 = .returned 0 ∧
      ((system mixedOps 0).final (tornRun 0 1)).pc 1 = .returned 5 ∧
      ((system mixedOps 0).final (tornRun 0 1)).mem = 6 ∧
      ¬Atomic mixedOps 0 ((system mixedOps 0).final (tornRun 0 1)) := by
  have hpc : ∀ t, ((system mixedOps 0).final (tornRun 0 1)).pc t =
      .returned (if t = 0 then 0 else 5) := by decide
  have hleft : ((system mixedOps 0).final (tornRun 0 1)).mem = 6 := by decide
  refine ⟨System.reachable_final (by decide), hpc 0, hpc 1, hleft, ?_⟩
  intro h
  obtain ⟨order, hnodup, hall, hmem, hresults⟩ := h fun t => ⟨_, hpc t⟩
  have hlength : order.length = 2 := by
    have huniv : order.toFinset = Finset.univ := by
      ext t
      simp [hall t]
    rw [← List.toFinset_card_of_nodup hnodup, huniv]
    rfl
  obtain ⟨a, b, rfl⟩ := List.length_eq_two.mp hlength
  rw [hleft] at hmem
  have hnone : ∀ a b : Fin 2, (sequential mixedOps [a, b] 0).1 = 6 →
      ((sequential mixedOps [a, b] 0).2.all fun x => (if x.1 = 0 then 0 else 5) == x.2) = false := by
    decide
  have hsome : ((sequential mixedOps [a, b] 0).2.all
      fun x => (if x.1 = 0 then 0 else 5) == x.2) = true := by
    rw [List.all_eq_true]
    intro x hx
    have hreturned := hresults x hx
    rw [hpc x.1] at hreturned
    exact beq_iff_eq.mpr (Pc.returned.inj hreturned)
  rw [hnone a b hmem] at hsome
  cases hsome

end PFunc.Atomics.Generic
