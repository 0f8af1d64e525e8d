import Mathlib.Data.Set.Finite.Lemmas
import Mathlib.Data.List.Pairwise

/-!
# The stacks of fork-join runs

Workers begin queued tasks on top of the tasks they have begun before. The task on
top may spawn children onto the queue of its worker, and ends after all its children
have ended. One clock stamps births and beginnings. If every stack waits for a child of
its top, then the child for which the latest beginner waits is queued, and whatever
was queued after it comes from outside or from the top of a stack that shares the queue.
-/

namespace PFunc.ForkJoinStacks

set_option linter.unusedSectionVars false

universe u

/-- Workers `ι`, their queues `κ`, tasks `W`, and a value in `V` for each task. -/
@[ext]
structure State (ι κ W V : Type u) where
  /-- the task on top of the stack comes first -/
  stack : ι → List W
  queue : κ → Set W
  parent : W → Option W
  value : W → V
  born : W → ℕ
  began : W → ℕ
  clock : ℕ

variable {ι κ W V : Type u} [DecidableEq ι] [DecidableEq κ] [DecidableEq W]

namespace State

/-- Queued or begun, and not ended. -/
def Active (s : State ι κ W V) (w : W) : Prop :=
  (∃ q, w ∈ s.queue q) ∨ ∃ i, w ∈ s.stack i

def prepare (s : State ι κ W V) (c : W) (v : V) : State ι κ W V :=
  { s with value := Function.update s.value c v }

def enqueue (s : State ι κ W V) (p : Option W) (q : κ) (c : W) : State ι κ W V :=
  { s with
    queue := Function.update s.queue q (insert c (s.queue q))
    parent := Function.update s.parent c p
    born := Function.update s.born c s.clock
    clock := s.clock + 1 }

def take (s : State ι κ W V) (i : ι) (q : κ) (f : W) : State ι κ W V :=
  { s with
    queue := Function.update s.queue q (s.queue q \ {f})
    stack := Function.update s.stack i (f :: s.stack i)
    began := Function.update s.began f s.clock
    clock := s.clock + 1 }

def finish (s : State ι κ W V) (i : ι) (rest : List W) : State ι κ W V :=
  { s with stack := Function.update s.stack i rest }

/-- When the top of a stack was begun. -/
def latest (s : State ι κ W V) (i : ι) : ℕ :=
  ((s.stack i).head?.map s.began).getD 0

theorem latest_eq {s : State ι κ W V} {i : ι} {a : W} {rest : List W}
    (h : s.stack i = a :: rest) : s.latest i = s.began a := by
  simp [latest, h]

end State

/-- One move. `home` is the queue of a worker, and `R` relates a parent's value to a child's. -/
inductive Move (home : ι → κ) (R : V → V → Prop) (s : State ι κ W V) : State ι κ W V → Prop
  | prepare (c : W) (v : V) (hc : ¬s.Active c) : Move home R s (s.prepare c v)
  | spawn (i : ι) (p : W) (rest : List W) (c : W) (hi : s.stack i = p :: rest)
      (hc : ¬s.Active c) (hR : R (s.value p) (s.value c)) :
      Move home R s (s.enqueue (some p) (home i) c)
  | external (q : κ) (c : W) (hc : ¬s.Active c) : Move home R s (s.enqueue none q c)
  | take (i : ι) (q : κ) (f : W) (hf : f ∈ s.queue q) : Move home R s (s.take i q f)
  | finish (i : ι) (w : W) (rest : List W) (hi : s.stack i = w :: rest)
      (hw : ∀ c, s.Active c → s.parent c ≠ some w) : Move home R s (s.finish i rest)

structure Invariant (home : ι → κ) (R : V → V → Prop) (s : State ι κ W V) : Prop where
  queue_unique : ∀ w q q', w ∈ s.queue q → w ∈ s.queue q' → q = q'
  stack_unique : ∀ w i j, w ∈ s.stack i → w ∈ s.stack j → i = j
  disjoint : ∀ w q i, w ∈ s.queue q → w ∉ s.stack i
  sorted : ∀ i, (s.stack i).Pairwise fun a p => s.began p < s.began a
  began_lt : ∀ w i, w ∈ s.stack i → s.began w < s.clock
  born_lt : ∀ c, s.Active c → s.born c < s.clock
  born_began : ∀ c i, c ∈ s.stack i → s.born c < s.began c
  parent_mem : ∀ c p, s.Active c → s.parent c = some p → ∃ i, p ∈ s.stack i
  began_born : ∀ c p, s.Active c → s.parent c = some p → s.began p < s.born c
  /-- a task below another one has spawned nothing since that one was begun -/
  suspended : ∀ i, (s.stack i).Pairwise fun a p =>
    ∀ c, s.Active c → s.parent c = some p → s.born c < s.began a
  home_eq : ∀ c p q i, c ∈ s.queue q → s.parent c = some p → p ∈ s.stack i → q = home i
  value_rel : ∀ c p, s.Active c → s.parent c = some p → R (s.value p) (s.value c)

variable {home : ι → κ} {R : V → V → Prop} {s t : State ι κ W V}

namespace State

theorem mem_enqueue {p : Option W} {q q' : κ} {c w : W} :
    w ∈ (s.enqueue p q c).queue q' ↔ w ∈ s.queue q' ∨ q' = q ∧ w = c := by
  by_cases he : q' = q
  · subst he
    simp [enqueue, or_comm]
  · simp [enqueue, he]

theorem active_enqueue {p : Option W} {q : κ} {c w : W} :
    (s.enqueue p q c).Active w ↔ s.Active w ∨ w = c := by
  constructor
  · intro h
    rcases h with ⟨q', hq'⟩ | ⟨i, hi⟩
    · rcases mem_enqueue.mp hq' with hw | ⟨-, hw⟩
      · exact .inl (.inl ⟨q', hw⟩)
      · exact .inr hw
    · exact .inl (.inr ⟨i, hi⟩)
  · intro h
    rcases h with (⟨q', hq'⟩ | ⟨i, hi⟩) | hw
    · exact .inl ⟨q', mem_enqueue.mpr (.inl hq')⟩
    · exact .inr ⟨i, hi⟩
    · exact .inl ⟨q, mem_enqueue.mpr (.inr ⟨rfl, hw⟩)⟩

theorem mem_take_queue {i : ι} {q q' : κ} {f w : W} (h : w ∈ (s.take i q f).queue q') :
    w ∈ s.queue q' ∧ (q' = q → w ≠ f) := by
  by_cases he : q' = q
  · subst he
    simpa [take] using h
  · simpa [take, he] using h

theorem mem_take_stack {i j : ι} {q : κ} {f w : W} :
    w ∈ (s.take i q f).stack j ↔ w ∈ s.stack j ∨ j = i ∧ w = f := by
  by_cases he : j = i
  · subst he
    simp [take, or_comm]
  · simp [take, he]

theorem active_of_take {i : ι} {q : κ} {f w : W} (hf : f ∈ s.queue q)
    (h : (s.take i q f).Active w) : s.Active w := by
  rcases h with ⟨q', hq'⟩ | ⟨j, hj⟩
  · exact .inl ⟨q', (mem_take_queue hq').1⟩
  · rcases mem_take_stack.mp hj with hw | ⟨-, rfl⟩
    · exact .inr ⟨j, hw⟩
    · exact .inl ⟨q, hf⟩

theorem mem_of_finish {i j : ι} {w x : W} {rest : List W} (hi : s.stack i = w :: rest)
    (h : x ∈ (s.finish i rest).stack j) : x ∈ s.stack j := by
  by_cases he : j = i
  · subst he
    rw [hi]
    exact List.mem_cons_of_mem w (by simpa [finish] using h)
  · simpa [finish, he] using h

theorem active_of_finish {i : ι} {w x : W} {rest : List W} (hi : s.stack i = w :: rest)
    (h : (s.finish i rest).Active x) : s.Active x := by
  rcases h with hq | ⟨j, hj⟩
  · exact .inl hq
  · exact .inr ⟨j, mem_of_finish hi hj⟩

end State

namespace Invariant

theorem empty (hq : ∀ q, s.queue q = ∅) (hs : ∀ i, s.stack i = []) : Invariant home R s := by
  have hactive : ∀ c, ¬s.Active c := by
    intro c hc
    rcases hc with ⟨q, hc⟩ | ⟨i, hc⟩
    · simp [hq] at hc
    · simp [hs] at hc
  constructor <;> simp [hq, hs, hactive]

theorem prepare (h : Invariant home R s) {c : W} (v : V) (hc : ¬s.Active c) :
    Invariant home R (s.prepare c v) where
  __ := h
  value_rel := by
    intro x p hx hp
    obtain ⟨i, hi⟩ := h.parent_mem x p hx hp
    have hxc : x ≠ c := fun he => hc (he ▸ hx)
    have hpc : p ≠ c := fun he => hc (he ▸ .inr ⟨i, hi⟩)
    simpa [State.prepare, hxc, hpc] using h.value_rel x p hx hp

theorem not_mem_tail (h : Invariant home R s) {i j : ι} {w a : W} {rest : List W}
    (hi : s.stack i = w :: rest) (hj : [a, w].Sublist (s.stack j)) : False := by
  have hij : j = i := h.stack_unique w j i (hj.subset (by simp)) (by simp [hi])
  subst hij
  have hs := h.sorted j
  rw [hi] at hj
  have hw : w ∈ rest := by
    rcases List.sublist_cons_iff.mp hj with hj | ⟨r, hr, hj⟩
    · exact hj.subset (by simp)
    · cases hr
      exact hj.subset (by simp)
  rw [hi, List.pairwise_cons] at hs
  exact absurd (hs.1 w hw) (by omega)

theorem enqueue (h : Invariant home R s) {p : Option W} {q : κ} {c : W} (hc : ¬s.Active c)
    (hp : ∀ x, p = some x → ∃ i rest,
      s.stack i = x :: rest ∧ q = home i ∧ R (s.value x) (s.value c)) :
    Invariant home R (s.enqueue p q c) where
  queue_unique := by
    intro w q₁ q₂ h₁ h₂
    rcases State.mem_enqueue.mp h₁ with h₁ | ⟨rfl, rfl⟩ <;>
      rcases State.mem_enqueue.mp h₂ with h₂ | ⟨h₂, h₃⟩
    · exact h.queue_unique w q₁ q₂ h₁ h₂
    · exact absurd (.inl ⟨q₁, h₃ ▸ h₁⟩) hc
    · exact absurd (.inl ⟨q₂, h₂⟩) hc
    · exact h₂.symm
  stack_unique := h.stack_unique
  disjoint := by
    intro w q' i hq hi
    rcases State.mem_enqueue.mp hq with hq | ⟨-, rfl⟩
    · exact h.disjoint w q' i hq hi
    · exact hc (.inr ⟨i, hi⟩)
  sorted := h.sorted
  began_lt := by
    intro w i hi
    have := h.began_lt w i hi
    change s.began w < s.clock + 1
    omega
  born_lt := by
    intro w hw
    change Function.update s.born c s.clock w < s.clock + 1
    by_cases he : w = c
    · simp [he]
    · have := h.born_lt w ((State.active_enqueue.mp hw).resolve_right he)
      rw [Function.update_of_ne he]
      omega
  born_began := by
    intro w i hi
    have he : w ≠ c := fun he => hc (he ▸ .inr ⟨i, hi⟩)
    simpa [State.enqueue, he] using h.born_began w i hi
  parent_mem := by
    intro w x hw hx
    by_cases he : w = c
    · subst he
      obtain ⟨i, rest, hi, -⟩ := hp x (by simpa [State.enqueue] using hx)
      exact ⟨i, by simp [State.enqueue, hi]⟩
    · exact h.parent_mem w x ((State.active_enqueue.mp hw).resolve_right he)
        (by simpa [State.enqueue, he] using hx)
  began_born := by
    intro w x hw hx
    by_cases he : w = c
    · subst he
      obtain ⟨i, rest, hi, -⟩ := hp x (by simpa [State.enqueue] using hx)
      simpa [State.enqueue] using h.began_lt x i (by simp [hi])
    · simpa [State.enqueue, he] using
        h.began_born w x ((State.active_enqueue.mp hw).resolve_right he)
          (by simpa [State.enqueue, he] using hx)
  suspended := by
    intro j
    apply (List.pairwise_iff_forall_sublist.mpr ?_)
    intro a x hax w hw hx
    by_cases he : w = c
    · subst he
      obtain ⟨i, rest, hi, -⟩ := hp x (by simpa [State.enqueue] using hx)
      exact (h.not_mem_tail hi hax).elim
    · simpa [State.enqueue, he] using
        List.pairwise_iff_forall_sublist.mp (h.suspended j) hax w
          ((State.active_enqueue.mp hw).resolve_right he) (by simpa [State.enqueue, he] using hx)
  home_eq := by
    intro w x q' i hq hx hi
    change x ∈ s.stack i at hi
    by_cases he : w = c
    · subst he
      obtain ⟨j, rest, hj, hq', -⟩ := hp x (by simpa [State.enqueue] using hx)
      have hji : j = i := h.stack_unique x j i (by simp [hj]) hi
      rcases State.mem_enqueue.mp hq with hq | ⟨rfl, -⟩
      · exact absurd (.inl ⟨q', hq⟩) hc
      · exact hji ▸ hq'
    · exact h.home_eq w x q' i ((State.mem_enqueue.mp hq).resolve_right fun hn => he hn.2)
        (by simpa [State.enqueue, he] using hx) hi
  value_rel := by
    intro w x hw hx
    by_cases he : w = c
    · subst he
      obtain ⟨i, rest, -, -, hR⟩ := hp x (by simpa [State.enqueue] using hx)
      exact hR
    · exact h.value_rel w x ((State.active_enqueue.mp hw).resolve_right he)
        (by simpa [State.enqueue, he] using hx)

theorem take (h : Invariant home R s) {i : ι} {q : κ} {f : W} (hf : f ∈ s.queue q) :
    Invariant home R (s.take i q f) where
  queue_unique := by
    intro w q₁ q₂ h₁ h₂
    exact h.queue_unique w q₁ q₂ (State.mem_take_queue h₁).1 (State.mem_take_queue h₂).1
  stack_unique := by
    intro w j k hj hk
    rcases State.mem_take_stack.mp hj with hj | ⟨rfl, rfl⟩ <;>
      rcases State.mem_take_stack.mp hk with hk | ⟨hk, hw⟩
    · exact h.stack_unique w j k hj hk
    · exact absurd (hw ▸ hj) (h.disjoint f q j hf)
    · exact absurd hk (h.disjoint w q k hf)
    · exact hk.symm
  disjoint := by
    intro w q' j hq hj
    obtain ⟨hold, hne⟩ := State.mem_take_queue hq
    rcases State.mem_take_stack.mp hj with hj | ⟨-, rfl⟩
    · exact h.disjoint w q' j hold hj
    · exact hne (h.queue_unique w q' q hold hf) rfl
  sorted := by
    intro j
    have hs : (s.stack j).Pairwise fun a p =>
        (s.take i q f).began p < (s.take i q f).began a := by
      refine (h.sorted j).imp_of_mem ?_
      intro a p ha hp hap
      have hap' : a ≠ f ∧ p ≠ f :=
        ⟨fun he => h.disjoint f q j hf (he ▸ ha), fun he => h.disjoint f q j hf (he ▸ hp)⟩
      simpa [State.take, hap'.1, hap'.2] using hap
    by_cases he : j = i
    · subst he
      have hstack : (s.take j q f).stack j = f :: s.stack j := by simp [State.take]
      rw [hstack, List.pairwise_cons]
      refine ⟨?_, hs⟩
      intro p hp
      have hpf : p ≠ f := fun he => h.disjoint f q j hf (he ▸ hp)
      simpa [State.take, hpf] using h.began_lt p j hp
    · simpa [State.take, he] using hs
  began_lt := by
    intro w j hj
    change Function.update s.began f s.clock w < s.clock + 1
    by_cases he : w = f
    · simp [he]
    · rcases State.mem_take_stack.mp hj with hj | ⟨-, hw⟩
      · have := h.began_lt w j hj
        rw [Function.update_of_ne he]
        omega
      · exact absurd hw he
  born_lt := by
    intro w hw
    have := h.born_lt w (State.active_of_take hf hw)
    change s.born w < s.clock + 1
    omega
  born_began := by
    intro w j hj
    change s.born w < Function.update s.began f s.clock w
    rcases State.mem_take_stack.mp hj with hj | ⟨-, rfl⟩
    · have hne : w ≠ f := fun he => h.disjoint f q j hf (he ▸ hj)
      rw [Function.update_of_ne hne]
      exact h.born_began w j hj
    · simpa using h.born_lt w (.inl ⟨q, hf⟩)
  parent_mem := by
    intro w x hw hx
    obtain ⟨j, hj⟩ := h.parent_mem w x (State.active_of_take hf hw) hx
    exact ⟨j, State.mem_take_stack.mpr (.inl hj)⟩
  began_born := by
    intro w x hw hx
    obtain ⟨j, hj⟩ := h.parent_mem w x (State.active_of_take hf hw) hx
    have hne : x ≠ f := fun he => h.disjoint f q j hf (he ▸ hj)
    simpa [State.take, hne] using h.began_born w x (State.active_of_take hf hw) hx
  suspended := by
    intro j
    have hs : (s.stack j).Pairwise fun a p => ∀ c, (s.take i q f).Active c →
        s.parent c = some p → s.born c < (s.take i q f).began a := by
      refine (h.suspended j).imp_of_mem ?_
      intro a p ha hp hap c hc hcp
      have hne : a ≠ f := fun he => h.disjoint f q j hf (he ▸ ha)
      simpa [State.take, hne] using hap c (State.active_of_take hf hc) hcp
    by_cases he : j = i
    · subst he
      have hstack : (s.take j q f).stack j = f :: s.stack j := by simp [State.take]
      rw [hstack, List.pairwise_cons]
      refine ⟨?_, hs⟩
      intro p hp c hc hcp
      simpa [State.take] using h.born_lt c (State.active_of_take hf hc)
    · have hstack : (s.take i q f).stack j = s.stack j := by simp [State.take, he]
      rw [hstack]
      exact hs
  home_eq := by
    intro w x q' j hq hx hj
    obtain ⟨hold, -⟩ := State.mem_take_queue hq
    rcases State.mem_take_stack.mp hj with hj | ⟨-, rfl⟩
    · exact h.home_eq w x q' j hold hx hj
    · obtain ⟨k, hk⟩ := h.parent_mem w x (.inl ⟨q', hold⟩) hx
      exact absurd hk (h.disjoint x q k hf)
  value_rel := by
    intro w x hw hx
    exact h.value_rel w x (State.active_of_take hf hw) hx

theorem finish (h : Invariant home R s) {i : ι} {w : W} {rest : List W}
    (hi : s.stack i = w :: rest) (hw : ∀ c, s.Active c → s.parent c ≠ some w) :
    Invariant home R (s.finish i rest) := by
  have hsub : ∀ j, ((s.finish i rest).stack j).Sublist (s.stack j) := by
    intro j
    by_cases he : j = i
    · subst he
      simp [State.finish, hi]
    · simp [State.finish, he]
  constructor
  case queue_unique => exact h.queue_unique
  case stack_unique =>
    intro x j k hj hk
    exact h.stack_unique x j k ((hsub j).subset hj) ((hsub k).subset hk)
  case disjoint =>
    intro x q j hq hj
    exact h.disjoint x q j hq ((hsub j).subset hj)
  case sorted =>
    intro j
    exact (h.sorted j).sublist (hsub j)
  case began_lt =>
    intro x j hj
    exact h.began_lt x j ((hsub j).subset hj)
  case born_lt =>
    intro x hx
    exact h.born_lt x (State.active_of_finish hi hx)
  case born_began =>
    intro x j hj
    exact h.born_began x j ((hsub j).subset hj)
  case parent_mem =>
    intro x p hx hp
    have hold := State.active_of_finish hi hx
    obtain ⟨j, hj⟩ := h.parent_mem x p hold hp
    refine ⟨j, ?_⟩
    by_cases he : j = i
    · subst he
      rw [hi] at hj
      have hpw : p ≠ w := fun he => hw x hold (he ▸ hp)
      simpa [State.finish, hpw] using hj
    · simpa [State.finish, he] using hj
  case began_born =>
    intro x p hx hp
    exact h.began_born x p (State.active_of_finish hi hx) hp
  case suspended =>
    intro j
    refine ((h.suspended j).sublist (hsub j)).imp ?_
    intro a p hap c hc hcp
    exact hap c (State.active_of_finish hi hc) hcp
  case home_eq =>
    intro x p q j hq hp hj
    exact h.home_eq x p q j hq hp ((hsub j).subset hj)
  case value_rel =>
    intro x p hx hp
    exact h.value_rel x p (State.active_of_finish hi hx) hp

theorem move (h : Invariant home R s) (hm : Move home R s t) : Invariant home R t := by
  cases hm with
  | prepare c v hc => exact h.prepare v hc
  | spawn i p rest c hi hc hR =>
    refine h.enqueue hc ?_
    intro x hx
    cases hx
    exact ⟨i, rest, hi, rfl, hR⟩
  | external q c hc => exact h.enqueue hc (by simp)
  | take i q f hf => exact h.take hf
  | finish i w rest hi hw => exact h.finish hi hw

theorem began_le_latest (h : Invariant home R s) {w : W} {j : ι} (hj : w ∈ s.stack j) :
    s.began w ≤ s.latest j := by
  obtain ⟨b, rest, hb⟩ := List.exists_cons_of_ne_nil (List.ne_nil_of_mem hj)
  have hs := h.sorted j
  rw [State.latest_eq hb]
  rw [hb] at hj hs
  rcases List.mem_cons.mp hj with rfl | hw
  · exact le_rfl
  · exact ((List.pairwise_cons.mp hs).1 w hw).le

/-- When every stack waits for a child of its top, the worker whose top was begun last
finds its child queued, and all that was queued later comes from outside or from
the top of a stack with the same queue. -/
theorem exists_latest (h : Invariant home R s) (hfin : {i | s.stack i ≠ []}.Finite)
    (hne : ∃ i, s.stack i ≠ []) (child : ι → W)
    (hchild : ∀ i a rest, s.stack i = a :: rest →
      s.Active (child i) ∧ s.parent (child i) = some a) :
    ∃ i a rest, s.stack i = a :: rest ∧ child i ∈ s.queue (home i) ∧
      ∀ f ∈ s.queue (home i), s.born (child i) ≤ s.born f →
        s.parent f = none ∨ ∃ j b rest', s.stack j = b :: rest' ∧ home j = home i ∧
          s.parent f = some b := by
  obtain ⟨i, hi, hmax⟩ := Set.exists_max_image {i | s.stack i ≠ []} s.latest hfin hne
  obtain ⟨a, rest, ha⟩ := List.exists_cons_of_ne_nil hi
  obtain ⟨hactive, hparent⟩ := hchild i a rest ha
  have hlatest : s.latest i < s.born (child i) := by
    rw [State.latest_eq ha]
    exact h.began_born _ _ hactive hparent
  have hbefore : ∀ w j, w ∈ s.stack j → s.began w < s.born (child i) := by
    intro w j hj
    have hle := h.began_le_latest hj
    have := hmax j (List.ne_nil_of_mem hj)
    omega
  have hqueue : ∃ q, child i ∈ s.queue q := by
    rcases hactive with hq | ⟨j, hj⟩
    · exact hq
    · have := h.born_began _ _ hj
      have := hbefore _ j hj
      omega
  obtain ⟨q, hq⟩ := hqueue
  have hhome : q = home i := h.home_eq _ _ q i hq hparent (by simp [ha])
  refine ⟨i, a, rest, ha, hhome ▸ hq, ?_⟩
  intro f hf hle
  rcases hp : s.parent f with _ | p
  · exact .inl rfl
  obtain ⟨j, hj⟩ := h.parent_mem f p (.inl ⟨_, hf⟩) hp
  obtain ⟨b, rest', hb⟩ := List.exists_cons_of_ne_nil (List.ne_nil_of_mem hj)
  have hpb : p = b := by
    by_contra hne
    have hs := h.suspended j
    rw [hb, List.pairwise_cons] at hs
    rw [hb] at hj
    have hfb := hs.1 p ((List.mem_cons.mp hj).resolve_left hne) f (.inl ⟨_, hf⟩) hp
    have := hbefore b j (by simp [hb])
    omega
  subst hpb
  exact .inr ⟨j, p, rest', hb, (h.home_eq f p _ j hf hp hj).symm, rfl⟩

end Invariant

end PFunc.ForkJoinStacks
