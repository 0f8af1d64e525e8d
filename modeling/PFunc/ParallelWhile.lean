import PFunc.LabelledRuns
import Mathlib.Algebra.Order.BigOperators.Group.Finset
import Mathlib.Data.List.Perm.Basic

/-!
# `parallel_while`

The wrapper of a task keeps a reference to what `*first` was when the task was spawned, and the
task reads it at any time later, when the loop may have advanced the iterator. A temporary is
gone by then, and an element may have been overwritten. Only the increments of the iterator
change the memory that the elements live in.
-/

namespace PFunc.ParallelWhile

open LabelledRuns Finset

variable {ι L V : Type}

/-- The objects that are alive, by location. -/
abbrev Memory (L V : Type) := L → Option V

/-- What `*first` gives for a `const ValueType&`: an object that lives on, or a temporary. -/
inductive Ref (L V : Type) where
  | lvalue (l : L)
  | temporary (v : V)
  deriving DecidableEq

namespace Ref

/-- The value while the expression `*first` is evaluated. -/
def value (memory : Memory L V) : Ref L V → Option V
  | .lvalue l => memory l
  | .temporary v => some v

/-- The value that the reference denotes afterwards. -/
def read (memory : Memory L V) : Ref L V → Option V
  | .lvalue l => memory l
  | .temporary _ => none

end Ref

/-- The operations of an input iterator; `isLast` compares it with `last`. -/
structure InputIterator (ι L V : Type) where
  isLast : ι → Bool
  deref : ι → Memory L V → Ref L V
  next : ι → Memory L V → ι × Memory L V

/-- A range `[first, last)` of `length` elements. -/
structure Range (ι L V : Type) where
  iterator : InputIterator ι L V
  first : ι
  memory : Memory L V
  length : ℕ
  inside : ∀ k < length,
    iterator.isLast ((fun p => iterator.next p.1 p.2)^[k] (first, memory)).1 = false
  ends : iterator.isLast ((fun p => iterator.next p.1 p.2)^[length] (first, memory)).1

namespace Range

variable (r : Range ι L V)

/-- The iterator and the memory after `k` increments. -/
def pos (k : ℕ) : ι × Memory L V :=
  (fun p => r.iterator.next p.1 p.2)^[k] (r.first, r.memory)

def ref (k : ℕ) : Ref L V := r.iterator.deref (r.pos k).1 (r.pos k).2

/-- The value of an element when the iterator points to it. -/
def element (k : ℕ) : Option V := (r.ref k).value (r.pos k).2

/-- What `serial_while` applies its functor to, in its order. -/
def serialWhile : List (ℕ × Option V) := (List.range r.length).map fun k => (k, r.element k)

theorem pos_succ (k : ℕ) : r.pos (k + 1) = r.iterator.next (r.pos k).1 (r.pos k).2 :=
  Function.iterate_succ_apply' _ _ _

/-- Every element is an object that keeps its value until the loop is done. -/
def Stable : Prop :=
  ∀ k < r.length, ∃ l, r.ref k = .lvalue l ∧
    ∀ j, k ≤ j → j ≤ r.length → (r.pos j).2 l = (r.pos k).2 l

end Range

/-- How far a task has got. -/
inductive Status where
  | unspawned
  | queued
  | running
  | done
  deriving DecidableEq

/-- Where `operator()` is. -/
inductive Ctl where
  /-- before `first != last` -/
  | testing
  /-- before `++first` -/
  | advancing
  /-- in `wait_all`, on the task of this index -/
  | waiting (i : ℕ)
  | returned
  deriving DecidableEq

structure State (ι L V : Type) where
  first : ι
  memory : Memory L V
  /-- the references of the wrappers -/
  functors : List (Ref L V)
  status : ℕ → Status
  ctl : Ctl
  /-- which task has applied `func`, and to what -/
  log : List (ℕ × Option V)

inductive Label where
  /-- `operator()` moves on -/
  | loop
  /-- a worker takes the task and applies `func` -/
  | run (i : ℕ)
  /-- `func` returns and the task is complete -/
  | finish (i : ℕ)
  deriving DecidableEq

namespace State

def setStatus (s : State ι L V) (i : ℕ) (st : Status) : State ι L V :=
  { s with status := Function.update s.status i st }

/-- One more task for what `first` points to. -/
def spawn (s : State ι L V) (ref : Ref L V) : State ι L V :=
  { s with
    functors := s.functors ++ [ref]
    status := Function.update s.status s.functors.length .queued
    ctl := .advancing }

def apply (s : State ι L V) (i : ℕ) (ref : Ref L V) : State ι L V :=
  { s with
    status := Function.update s.status i .running
    log := s.log ++ [(i, ref.read s.memory)] }

end State

def loop (it : InputIterator ι L V) (s : State ι L V) : Option (State ι L V) :=
  match s.ctl with
  | .testing =>
    if it.isLast s.first then some { s with ctl := .waiting 0 }
    else some (s.spawn (it.deref s.first s.memory))
  | .advancing =>
    let p := it.next s.first s.memory
    some { s with first := p.1, memory := p.2, ctl := .testing }
  | .waiting i =>
    if i < s.functors.length then
      if s.status i = .done then some { s with ctl := .waiting (i + 1) } else none
    else some { s with ctl := .returned }
  | .returned => none

def step (it : InputIterator ι L V) (s : State ι L V) : Label → Option (State ι L V)
  | .loop => loop it s
  | .run i =>
    match s.status i, s.functors[i]? with
    | .queued, some ref => some (s.apply i ref)
    | _, _ => none
  | .finish i => if s.status i = .running then some (s.setStatus i .done) else none

/-- `operator()` has been called for the range. -/
def system (r : Range ι L V) : System (State ι L V) Label where
  initial := ⟨r.first, r.memory, [], fun _ => .unspawned, .testing, []⟩
  step := step r.iterator

/-! ### What holds in every run -/

variable {r : Range ι L V} {s s' : State ι L V}

/-- How often `first` has been incremented. -/
def State.advances (s : State ι L V) : ℕ :=
  match s.ctl with
  | .advancing => s.functors.length - 1
  | _ => s.functors.length

theorem State.advances_of_ne (h : s.ctl ≠ .advancing) : s.advances = s.functors.length := by
  unfold State.advances
  split
  next hc => exact absurd hc h
  next => rfl

theorem State.le_advances {i : ℕ} (hi : i < s.functors.length) : i ≤ s.advances := by
  unfold State.advances
  split <;> omega

structure Invariant (r : Range ι L V) (s : State ι L V) : Prop where
  pos : (s.first, s.memory) = r.pos s.advances
  le : s.functors.length ≤ r.length
  spawned : s.ctl = .advancing → 0 < s.functors.length
  waiting : ∀ i, s.ctl = .waiting i →
    s.functors.length = r.length ∧ i ≤ r.length ∧ ∀ j < i, s.status j = .done
  returned : s.ctl = .returned → s.functors.length = r.length ∧ ∀ j < r.length, s.status j = .done
  functors : ∀ i < s.functors.length, s.functors[i]? = some (r.ref i)
  unspawned : ∀ i, s.status i = .unspawned ↔ s.functors.length ≤ i
  nodup : (s.log.map Prod.fst).Nodup
  logged : ∀ i, i ∈ s.log.map Prod.fst ↔ s.status i = .running ∨ s.status i = .done
  /-- each task has read its reference at some time after it was spawned -/
  read : ∀ x ∈ s.log, x.1 < r.length ∧
    ∃ j, x.1 ≤ j ∧ j ≤ r.length ∧ x.2 = (r.ref x.1).read (r.pos j).2

namespace Invariant

theorem first (h : Invariant r s) : s.first = (r.pos s.advances).1 := congrArg Prod.fst h.pos

theorem memory (h : Invariant r s) : s.memory = (r.pos s.advances).2 := congrArg Prod.snd h.pos

theorem advances_le (h : Invariant r s) : s.advances ≤ r.length := by
  have hle := h.le
  unfold State.advances
  split <;> omega

theorem lt_of_status (h : Invariant r s) {i : ℕ} (hi : s.status i ≠ .unspawned) :
    i < s.functors.length := by
  by_contra hge
  exact hi ((h.unspawned i).mpr (by omega))

/-- The loop moves on to a point that has nothing to do with the tasks. -/
theorem goto (h : Invariant r s) {c : Ctl} (hpos : State.advances { s with ctl := c } = s.advances)
    (hadv : c ≠ .advancing)
    (hwait : ∀ i, c = .waiting i →
      s.functors.length = r.length ∧ i ≤ r.length ∧ ∀ j < i, s.status j = .done)
    (hret : c = .returned → s.functors.length = r.length ∧ ∀ j < r.length, s.status j = .done) :
    Invariant r { s with ctl := c } where
  pos := by
    rw [hpos]
    exact h.pos
  le := h.le
  spawned := fun hc => absurd hc hadv
  waiting := hwait
  returned := hret
  functors := h.functors
  unspawned := h.unspawned
  nodup := h.nodup
  logged := h.logged
  read := h.read

end Invariant

theorem invariant_initial : Invariant r (system r).initial where
  pos := rfl
  le := Nat.zero_le _
  spawned := by simp [system]
  waiting := by simp [system]
  returned := by simp [system]
  functors := by simp [system]
  unspawned := by simp [system]
  nodup := List.nodup_nil
  logged := by simp [system]
  read := by simp [system]

theorem spawn_invariant (h : Invariant r s) (hc : s.ctl = .testing)
    (hlast : r.iterator.isLast s.first = false) :
    Invariant r (s.spawn (r.iterator.deref s.first s.memory)) := by
  have hadv : s.advances = s.functors.length := s.advances_of_ne (by simp [hc])
  have hpos := h.pos
  have hfirst := h.first
  have hmemory := h.memory
  rw [hadv] at hpos hfirst hmemory
  have hlt : s.functors.length < r.length := by
    rcases Nat.lt_or_eq_of_le h.le with hlt | heq
    · exact hlt
    · have hend : r.iterator.isLast (r.pos r.length).1 = true := r.ends
      rw [hfirst, heq, hend] at hlast
      cases hlast
  have hnew : s.status s.functors.length = .unspawned := (h.unspawned _).mpr (Nat.le_refl _)
  refine ⟨?_, ?_, ?_, ?_, ?_, ?_, ?_, h.nodup, ?_, h.read⟩
  · have hsame : (s.spawn (r.iterator.deref s.first s.memory)).advances = s.functors.length := by
      simp [State.spawn, State.advances]
    rw [hsame]
    exact hpos
  · simp only [State.spawn, List.length_append, List.length_singleton]
    omega
  · intro _
    simp [State.spawn]
  · intro i hi
    cases hi
  · intro hi
    cases hi
  · intro i hi
    simp only [State.spawn, List.length_append, List.length_singleton] at hi ⊢
    rcases Nat.lt_or_ge i s.functors.length with hlt | hge
    · rw [List.getElem?_append_left hlt]
      exact h.functors i hlt
    · have heq : i = s.functors.length := by omega
      subst heq
      rw [List.getElem?_concat_length, hfirst, hmemory]
      rfl
  · intro i
    simp only [State.spawn, List.length_append, List.length_singleton]
    by_cases hi : i = s.functors.length
    · subst hi
      simp
    · rw [Function.update_of_ne hi, h.unspawned i]
      omega
  · intro i
    simp only [State.spawn]
    by_cases hi : i = s.functors.length
    · subst hi
      rw [h.logged, hnew]
      simp
    · rw [Function.update_of_ne hi]
      exact h.logged i

theorem loop_invariant (h : Invariant r s) (hs : loop r.iterator s = some s') :
    Invariant r s' := by
  unfold loop at hs
  split at hs
  next hc =>
    split at hs
    next hlast =>
      cases hs
      have hadv : s.advances = s.functors.length := s.advances_of_ne (by simp [hc])
      have heq : s.functors.length = r.length := by
        rcases Nat.lt_or_eq_of_le h.le with hlt | heq
        · have hin : r.iterator.isLast (r.pos s.functors.length).1 = false := r.inside _ hlt
          rw [← hadv, ← h.first, hlast] at hin
          cases hin
        · exact heq
      refine h.goto hadv.symm (by simp) ?_ (by simp)
      intro i hi
      cases hi
      exact ⟨heq, Nat.zero_le _, fun j hj => absurd hj (Nat.not_lt_zero j)⟩
    next hlast =>
      cases hs
      exact spawn_invariant h hc (by simpa using hlast)
  next hc =>
    cases hs
    have hpos := h.spawned hc
    have hadv : s.advances = s.functors.length - 1 := by
      unfold State.advances
      rw [hc]
    have hfirst := h.first
    have hmemory := h.memory
    refine ⟨?_, h.le, by simp, by simp, by simp, h.functors, h.unspawned, h.nodup, h.logged, h.read⟩
    change r.iterator.next s.first s.memory = r.pos s.functors.length
    obtain ⟨k, hk⟩ := Nat.exists_eq_succ_of_ne_zero (Nat.pos_iff_ne_zero.mp hpos)
    rw [hadv, hk, Nat.succ_eq_add_one, Nat.add_sub_cancel] at hfirst hmemory
    rw [hk, hfirst, hmemory]
    exact (r.pos_succ k).symm
  next i hc =>
    obtain ⟨hlen, hle, hdone⟩ := h.waiting i hc
    have hadv : s.advances = s.functors.length := s.advances_of_ne (by simp [hc])
    split at hs
    next hi =>
      simp only [Option.ite_none_right_eq_some, Option.some.injEq] at hs
      obtain ⟨hstatus, rfl⟩ := hs
      refine h.goto hadv.symm (by simp) ?_ (by simp)
      intro i' hi'
      cases hi'
      refine ⟨hlen, by omega, ?_⟩
      intro j hj
      rcases Nat.lt_or_eq_of_le (Nat.lt_succ_iff.mp hj) with hlt | rfl
      · exact hdone j hlt
      · exact hstatus
    next hi =>
      cases hs
      refine h.goto hadv.symm (by simp) (by simp) ?_
      intro _
      exact ⟨hlen, fun j hj => hdone j (by omega)⟩
  next => cases hs

/-- A task moves on, and if it applies `func` that is logged. -/
theorem status_invariant (h : Invariant r s) {i : ℕ} {st : Status} {entry : List (ℕ × Option V)}
    (hold : s.status i = .queued ∧ st = .running ∧
        entry = [(i, (r.ref i).read s.memory)] ∨
      s.status i = .running ∧ st = .done ∧ entry = []) :
    Invariant r { s with status := Function.update s.status i st, log := s.log ++ entry } := by
  have hlt : i < s.functors.length := by
    apply h.lt_of_status
    rcases hold with ⟨hi, -⟩ | ⟨hi, -⟩ <;> simp [hi]
  have hnotdone : s.status i ≠ .done := by
    rcases hold with ⟨hi, -⟩ | ⟨hi, -⟩ <;> simp [hi]
  have hkeep : ∀ j, s.status j = .done → Function.update s.status i st j = .done := by
    intro j hj
    have hne : j ≠ i := by
      intro he
      exact hnotdone (he ▸ hj)
    rw [Function.update_of_ne hne]
    exact hj
  refine ⟨h.pos, h.le, h.spawned, ?_, ?_, h.functors, ?_, ?_, ?_, ?_⟩
  · intro k hk
    obtain ⟨hlen, hle, hdone⟩ := h.waiting k hk
    exact ⟨hlen, hle, fun j hj => hkeep j (hdone j hj)⟩
  · intro hc
    obtain ⟨hlen, hdone⟩ := h.returned hc
    exact ⟨hlen, fun j hj => hkeep j (hdone j hj)⟩
  · intro j
    by_cases hj : j = i
    · subst hj
      rcases hold with ⟨-, rfl, -⟩ | ⟨-, rfl, -⟩ <;> simp [hlt]
    · simpa [hj] using h.unspawned j
  · rcases hold with ⟨hi, -, rfl⟩ | ⟨-, -, rfl⟩
    · have hnew : i ∉ s.log.map Prod.fst := by
        rw [h.logged, hi]
        simp
      rw [List.map_append, List.nodup_append]
      refine ⟨h.nodup, by simp, ?_⟩
      intro a ha b hb hab
      simp only [List.map_cons, List.map_nil, List.mem_singleton] at hb
      exact hnew (hb ▸ hab ▸ ha)
    · simpa using h.nodup
  · intro j
    have hj := h.logged j
    rcases hold with ⟨hi, rfl, rfl⟩ | ⟨hi, rfl, rfl⟩
    · by_cases he : j = i
      · subst he
        simp
      · rw [List.map_append, List.mem_append, hj]
        simp [he]
    · by_cases he : j = i
      · subst he
        simpa [hi] using hj
      · simpa [he] using hj
  · intro x hx
    rcases hold with ⟨-, -, rfl⟩ | ⟨-, -, rfl⟩
    · rcases List.mem_append.mp hx with hx | hx
      · exact h.read x hx
      · rw [List.mem_singleton] at hx
        subst hx
        have hle := h.le
        refine ⟨by omega, s.advances, State.le_advances hlt, h.advances_le, ?_⟩
        rw [h.memory]
    · exact h.read x (by simpa using hx)

theorem run_cases {i : ℕ} (h : Invariant r s) (hs : step r.iterator s (.run i) = some s') :
    s.status i = .queued ∧ s' = s.apply i (r.ref i) := by
  simp only [step] at hs
  split at hs
  next ref hi href =>
    have hlt := h.lt_of_status (i := i) (by simp [hi])
    rw [h.functors i hlt] at href
    cases href
    cases hs
    exact ⟨hi, rfl⟩
  next => cases hs

theorem step_invariant {l : Label} (h : Invariant r s) (hs : step r.iterator s l = some s') :
    Invariant r s' := by
  cases l with
  | loop => exact loop_invariant h hs
  | run i =>
    obtain ⟨hi, rfl⟩ := run_cases h hs
    exact status_invariant h (.inl ⟨hi, rfl, rfl⟩)
  | finish i =>
    simp only [step, Option.ite_none_right_eq_some, Option.some.injEq] at hs
    obtain ⟨hi, rfl⟩ := hs
    simpa [State.setStatus] using status_invariant h (.inr ⟨hi, rfl, rfl⟩)

theorem invariant_reachable (hr : (system r).Reachable (fun _ _ => True) s) : Invariant r s :=
  hr.invariant invariant_initial fun _ _ _ h _ hs => step_invariant h hs

/-! ### Every run ends -/

/-- How many steps a task has still to make. -/
def Status.left : Status → ℕ
  | .unspawned => 3
  | .queued => 2
  | .running => 1
  | .done => 0

/-- The steps that `operator()` has still to make, at most. -/
def State.loopLeft (r : Range ι L V) (s : State ι L V) : ℕ :=
  match s.ctl with
  | .testing => 2 * (r.length - s.functors.length) + r.length + 3
  | .advancing => 2 * (r.length - s.functors.length) + r.length + 4
  | .waiting i => r.length - i + 1
  | .returned => 0

/-- A bound on the steps that are left. -/
def State.left (r : Range ι L V) (s : State ι L V) : ℕ :=
  s.loopLeft r + ∑ i ∈ range r.length, (s.status i).left

theorem sum_left_lt {n i : ℕ} (hi : i < n) {status : ℕ → Status} {st : Status}
    (hst : st.left < (status i).left) :
    ∑ j ∈ range n, (Function.update status i st j).left < ∑ j ∈ range n, (status j).left := by
  refine sum_lt_sum ?_ ⟨i, mem_range.mpr hi, by simpa using hst⟩
  intro j _
  by_cases hj : j = i
  · subst hj
    simpa using hst.le
  · rw [Function.update_of_ne hj]

theorem loop_left_lt (h : Invariant r s) (hs : loop r.iterator s = some s') :
    s'.left r < s.left r := by
  have h' := loop_invariant h hs
  unfold loop at hs
  split at hs
  next hc =>
    split at hs
    next =>
      cases hs
      simp only [State.left, State.loopLeft, hc]
      omega
    next =>
      cases hs
      have hle := h'.le
      simp only [State.spawn, List.length_append, List.length_singleton] at hle
      have hnew : s.status s.functors.length = .unspawned := (h.unspawned _).mpr (Nat.le_refl _)
      have hsum := sum_left_lt hle (show Status.queued.left < (s.status s.functors.length).left by
        simp [hnew, Status.left])
      simp only [State.left, State.loopLeft, hc, State.spawn, List.length_append,
        List.length_singleton]
      omega
  next hc =>
    cases hs
    simp only [State.left, State.loopLeft, hc]
    omega
  next i hc =>
    obtain ⟨hlen, -, -⟩ := h.waiting i hc
    split at hs
    next hi =>
      simp only [Option.ite_none_right_eq_some, Option.some.injEq] at hs
      obtain ⟨-, rfl⟩ := hs
      simp only [State.left, State.loopLeft, hc]
      omega
    next =>
      cases hs
      simp only [State.left, State.loopLeft, hc]
      omega
  next => cases hs

theorem step_left_lt {l : Label} (h : Invariant r s) (hs : step r.iterator s l = some s') :
    s'.left r < s.left r := by
  cases l with
  | loop => exact loop_left_lt h hs
  | run i =>
    obtain ⟨hi, rfl⟩ := run_cases h hs
    have hlt := h.lt_of_status (i := i) (by simp [hi])
    have hle := h.le
    have hsum := sum_left_lt (show i < r.length by omega)
      (show Status.running.left < (s.status i).left by simp [hi, Status.left])
    simp only [State.left, State.loopLeft, State.apply]
    omega
  | finish i =>
    simp only [step, Option.ite_none_right_eq_some, Option.some.injEq] at hs
    obtain ⟨hi, rfl⟩ := hs
    have hlt := h.lt_of_status (i := i) (by simp [hi])
    have hle := h.le
    have hsum := sum_left_lt (show i < r.length by omega)
      (show Status.done.left < (s.status i).left by simp [hi, Status.left])
    simp only [State.left, State.loopLeft, State.setStatus]
    omega

/-- Unless `operator()` has returned, it or the task it waits for can move. -/
theorem exists_step (h : Invariant r s) (hc : s.ctl ≠ .returned) :
    ∃ l s', step r.iterator s l = some s' := by
  cases hctl : s.ctl with
  | testing =>
    refine ⟨.loop, ?_⟩
    simp only [step, loop, hctl]
    split <;> exact ⟨_, rfl⟩
  | advancing =>
    refine ⟨.loop, ?_⟩
    simp only [step, loop, hctl]
    exact ⟨_, rfl⟩
  | waiting i =>
    by_cases hi : i < s.functors.length
    · cases hst : s.status i with
      | unspawned =>
        have hge := (h.unspawned i).mp hst
        omega
      | queued => exact ⟨.run i, by simp [step, hst, h.functors i hi]⟩
      | running => exact ⟨.finish i, by simp [step, hst]⟩
      | done => exact ⟨.loop, by simp [step, loop, hctl, hi, hst]⟩
    · exact ⟨.loop, by simp [step, loop, hctl, hi]⟩
  | returned => exact absurd hctl hc

theorem length_le_of_run {ls : List Label} (hrun : (system r).run (system r).initial ls = some s) :
    ls.length ≤ 6 * r.length + 3 := by
  have hle : ls.length + s.left r ≤ (system r).initial.left r := by
    have hall : ∀ {s₁ s₂ : State ι L V} {ls : List Label}, Invariant r s₁ →
        (system r).run s₁ ls = some s₂ → ls.length + s₂.left r ≤ s₁.left r := by
      intro s₁ s₂ ls h hrun
      induction ls generalizing s₁ with
      | nil =>
        cases hrun
        simp
      | cons l ls ih =>
        cases hs : step r.iterator s₁ l with
        | none => simp [System.run, system, hs] at hrun
        | some t =>
          have htail := ih (step_invariant h hs) (by simpa [System.run, system, hs] using hrun)
          have hlt := step_left_lt h hs
          rw [List.length_cons]
          omega
    exact hall invariant_initial hrun
  have hinit : (system r).initial.left r = 6 * r.length + 3 := by
    have hsum : ∀ n, ∑ _i ∈ range n, Status.unspawned.left = 3 * n := by
      intro n
      induction n with
      | zero => rfl
      | succ n ih =>
        rw [sum_range_succ, ih, Status.left]
        omega
    simp only [State.left, State.loopLeft, system, hsum, List.length_nil]
    omega
  omega

/-- Every run can be led to its end, and what every step keeps is kept. -/
theorem exists_returned {J : State ι L V → Prop}
    (hkeep : ∀ s l s', Invariant r s → J s → step r.iterator s l = some s' → J s')
    (hr : (system r).Reachable (fun _ _ => True) s) (hj : J s) :
    ∃ t, (system r).Reachable (fun _ _ => True) t ∧ t.ctl = .returned ∧ J t := by
  refine hr.exists_ending (f := State.left r) (I := fun s => s.ctl = .returned) ?_ ?_ ?_ hj
  · intro s l t hr _ hs
    exact step_left_lt (invariant_reachable hr) hs
  · intro s hr hc
    obtain ⟨l, t, hs⟩ := exists_step (invariant_reachable hr) hc
    exact ⟨l, t, trivial, hs⟩
  · intro s l t hr hj hs
    exact hkeep s l t (invariant_reachable hr) hj hs

/-! ### Equivalence with `serial_while` -/

/-- Every task is complete, and `func` was applied once to each element with its value. -/
def State.Equivalent (r : Range ι L V) (s : State ι L V) : Prop :=
  s.log.Perm r.serialWhile ∧ ∀ i < s.functors.length, s.status i = .done

theorem equivalent_of_values (h : Invariant r s) (hc : s.ctl = .returned)
    (hvalues : ∀ x ∈ s.log, x.2 = r.element x.1) : s.Equivalent r := by
  obtain ⟨hlen, hdone⟩ := h.returned hc
  refine ⟨?_, fun i hi => hdone i (hlen ▸ hi)⟩
  have hlog : s.log = (s.log.map Prod.fst).map fun k => (k, r.element k) := by
    rw [List.map_map]
    refine (List.map_id s.log).symm.trans (List.map_congr_left ?_)
    intro x hx
    exact Prod.ext rfl (hvalues x hx)
  have hindices : (s.log.map Prod.fst).Perm (List.range r.length) := by
    rw [List.perm_ext_iff_of_nodup h.nodup List.nodup_range]
    intro i
    rw [h.logged, List.mem_range]
    constructor
    · intro hi
      have hlt := h.lt_of_status (i := i) (by rcases hi with hi | hi <;> simp [hi])
      omega
    · intro hi
      exact .inr (hdone i hi)
  rw [hlog]
  exact hindices.map _

theorem equivalent_of_stable (hstable : r.Stable)
    (hr : (system r).Reachable (fun _ _ => True) s) (hc : s.ctl = .returned) : s.Equivalent r := by
  have h := invariant_reachable hr
  refine equivalent_of_values h hc ?_
  intro x hx
  obtain ⟨hlt, j, hxj, hj, hread⟩ := h.read x hx
  obtain ⟨l, href, hkeep⟩ := hstable x.1 hlt
  rw [hread, Range.element, href]
  exact hkeep j hxj hj

/-- The loop may run ahead of all tasks. -/
theorem exists_ahead {a : ℕ} (ha : a ≤ r.length) :
    ∃ s, (system r).Reachable (fun _ _ => True) s ∧ s.ctl = .testing ∧ s.functors.length = a ∧
      ∀ i < a, s.status i = .queued := by
  induction a with
  | zero => exact ⟨_, .initial, rfl, rfl, fun i hi => absurd hi (Nat.not_lt_zero i)⟩
  | succ a ih =>
    obtain ⟨s, hr, hc, hlen, hqueued⟩ := ih (by omega)
    have h := invariant_reachable hr
    have hlast : r.iterator.isLast s.first = false := by
      rw [h.first, s.advances_of_ne (by simp [hc]), hlen]
      exact r.inside a (by omega)
    have hspawn : step r.iterator s .loop = some (s.spawn (r.iterator.deref s.first s.memory)) := by
      simp [step, loop, hc, hlast]
    have hr₁ := hr.step (a := Label.loop) trivial hspawn
    refine ⟨_, hr₁.step (a := Label.loop) trivial rfl, rfl, ?_, ?_⟩
    · simp [State.spawn, hlen]
    · intro i hi
      simp only [State.spawn, hlen]
      by_cases hia : i = a
      · subst hia
        simp
      · rw [Function.update_of_ne hia]
        exact hqueued i (by omega)

theorem log_kept {x : ℕ × Option V} {l : Label} (hx : x ∈ s.log)
    (hs : step r.iterator s l = some s') : x ∈ s'.log := by
  cases l with
  | loop =>
    simp only [step, loop] at hs
    split at hs
    · split at hs <;> cases hs <;> exact hx
    · cases hs
      exact hx
    · split at hs
      · simp only [Option.ite_none_right_eq_some, Option.some.injEq] at hs
        obtain ⟨-, rfl⟩ := hs
        exact hx
      · cases hs
        exact hx
    · cases hs
  | run i =>
    simp only [step] at hs
    split at hs
    · cases hs
      exact List.mem_append_left _ hx
    · cases hs
  | finish i =>
    simp only [step, Option.ite_none_right_eq_some, Option.some.injEq] at hs
    obtain ⟨-, rfl⟩ := hs
    exact hx

/-- A task may read its reference as late as it likes. -/
theorem exists_late_read {k j : ℕ} (hk : k < j) (hj : j ≤ r.length) :
    ∃ s, (system r).Reachable (fun _ _ => True) s ∧ s.ctl = .returned ∧
      (k, (r.ref k).read (r.pos j).2) ∈ s.log := by
  obtain ⟨s, hr, hc, hlen, hqueued⟩ := exists_ahead hj
  have h := invariant_reachable hr
  have hmemory : s.memory = (r.pos j).2 := by
    rw [h.memory, s.advances_of_ne (by simp [hc]), hlen]
  have hrun : step r.iterator s (.run k) = some (s.apply k (r.ref k)) := by
    simp [step, hqueued k hk, h.functors k (by omega)]
  refine exists_returned (fun s l s' _ hx hs => log_kept hx hs)
    (hr.step (a := Label.run k) trivial hrun) ?_
  simp [State.apply, hmemory]

/-- `parallel_while` does what `serial_while` does, in every schedule, iff every element is an
object that keeps its value until the loop is done. -/
theorem equivalent_iff_stable (r : Range ι L V) :
    (∀ s, (system r).Reachable (fun _ _ => True) s → s.ctl = .returned → s.Equivalent r) ↔
      r.Stable := by
  constructor
  · intro hall k hk
    have hread : ∀ j, k < j → j ≤ r.length → (r.ref k).read (r.pos j).2 = r.element k := by
      intro j hkj hj
      obtain ⟨s, hr, hc, hlog⟩ := exists_late_read hkj hj
      have hmem := (hall s hr hc).1.subset hlog
      obtain ⟨i, -, hi⟩ := List.mem_map.mp hmem
      simp only [Prod.mk.injEq] at hi
      obtain ⟨rfl, hval⟩ := hi
      exact hval.symm
    cases href : r.ref k with
    | lvalue l =>
      refine ⟨l, rfl, ?_⟩
      intro j hkj hj
      rcases Nat.lt_or_eq_of_le hkj with hlt | rfl
      · have hsame := hread j hlt hj
        simpa [Range.element, href, Ref.read, Ref.value] using hsame
      · rfl
    | temporary v =>
      have hsame := hread r.length hk (Nat.le_refl _)
      simp [Range.element, href, Ref.read, Ref.value] at hsame
  · intro hstable s hr hc
    exact equivalent_of_stable hstable hr hc

/-- In every run something can move until `operator()` returns, and no run is longer than six
steps for each element and three. -/
theorem runs_end (r : Range ι L V) :
    (∀ s, (system r).Reachable (fun _ _ => True) s → s.ctl ≠ .returned →
      ∃ l s', step r.iterator s l = some s') ∧
    ∀ ls s, (system r).run (system r).initial ls = some s → ls.length ≤ 6 * r.length + 3 :=
  ⟨fun _ hr hc => exists_step (invariant_reachable hr) hc, fun _ _ hrun => length_le_of_run hrun⟩

/-- The destinations 3, 4 of two edges, which `operator*` returns by value. -/
def edges : Range ℕ Unit ℕ where
  iterator := ⟨fun i => i == 2, fun i _ => .temporary (3 + i), fun i memory => (i + 1, memory)⟩
  first := 0
  memory := fun _ => none
  length := 2
  inside := by decide
  ends := by decide

/-- Numbers 5, 6 read into the one buffer of the iterator, to which `operator*` refers. -/
def stream : Range ℕ Unit ℕ where
  iterator := ⟨fun i => i == 2, fun _ _ => .lvalue (), fun i _ => (i + 1, fun _ => some (6 + i))⟩
  first := 0
  memory := fun _ => some 5
  length := 2
  inside := by decide
  ends := by decide

/-- The tasks run after the loop has spawned them all. -/
def lateRun : List Label :=
  [.loop, .loop, .loop, .loop, .loop, .run 0, .run 1, .finish 0, .finish 1, .loop, .loop, .loop]

theorem not_equivalent_lateRun :
    (((system edges).final lateRun).ctl = .returned ∧
      ((system edges).final lateRun).log = [(0, none), (1, none)] ∧
      edges.serialWhile = [(0, some 3), (1, some 4)] ∧
      ¬((system edges).final lateRun).Equivalent edges) ∧
    ((system stream).final lateRun).ctl = .returned ∧
      ((system stream).final lateRun).log = [(0, some 7), (1, some 7)] ∧
      stream.serialWhile = [(0, some 5), (1, some 6)] ∧
      ¬((system stream).final lateRun).Equivalent stream := by
  have hlog : ((system edges).final lateRun).log = [(0, none), (1, none)] := by decide
  have hlog' : ((system stream).final lateRun).log = [(0, some 7), (1, some 7)] := by decide
  refine ⟨⟨by decide, hlog, by decide, ?_⟩, by decide, hlog', by decide, ?_⟩
  · intro h
    have hperm := h.1
    rw [hlog] at hperm
    exact absurd hperm (by decide)
  · intro h
    have hperm := h.1
    rw [hlog'] at hperm
    exact absurd hperm (by decide)

end PFunc.ParallelWhile
