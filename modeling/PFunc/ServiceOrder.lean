import PFunc.Levels
import PFunc.Continuations

/-!
# The order in which queued tasks are served

While a task stays in its queue, `fifoS` serves only tasks put before it and `lifoS` only
tasks put after it. Under `cilkS` the owner of a deque serves the later ones and thieves the
earlier ones, the earliest first, and under `prioS` no task is served that the staying one
outranks. So a task that `fifoS` queues behind `n` others is among the next `n + 1` that are taken
from its queue.
-/

namespace PFunc.QueueSet

variable {W : Type}

/-- What becomes of the tasks ahead of `x` and behind it while `x` stays and `own` tasks are taken
by the owners of the queue and `stolen` by others. -/
def Since (before : W → W → Bool) (x : W) (own stolen : ℕ) (ahead behind ahead' behind' : List W) :
    Policy → Prop
  | .fifoS => own + stolen ≤ ahead.length ∧ ahead' = ahead.drop (own + stolen) ∧ behind <+: behind'
  | .lifoS => behind' = behind
  | .cilkS => stolen ≤ behind.length ∧ behind' = behind.take (behind.length - stolen)
  | .prioS => ∀ y ∈ ahead ++ behind, before y x → y ∈ ahead' ++ behind'

section Since

variable {p : Policy} {before : W → W → Bool} {x : W} {ahead behind ahead' behind' : List W}

theorem Since.refl : Since before x 0 0 ahead behind ahead behind p := by
  cases p with
  | prioS => exact fun y hy _ => hy
  | _ => simp [Since]

theorem Since.trans {before' : W → W → Bool} {own stolen own' stolen' : ℕ}
    {ahead'' behind'' : List W} (h : Since before x own stolen ahead behind ahead' behind' p)
    (h' : Since before' x own' stolen' ahead' behind' ahead'' behind'' p)
    (hb : ∀ y ∈ ahead ++ behind, before' y x = before y x) :
    Since before x (own + own') (stolen + stolen') ahead behind ahead'' behind'' p := by
  cases p with
  | fifoS =>
    obtain ⟨hle, rfl, hpre⟩ := h
    obtain ⟨hle', rfl, hpre'⟩ := h'
    rw [List.length_drop] at hle'
    refine ⟨by omega, ?_, hpre.trans hpre'⟩
    rw [List.drop_drop]
    congr 1
    omega
  | lifoS => exact Eq.trans h' h
  | cilkS =>
    obtain ⟨hle, rfl⟩ := h
    obtain ⟨hle', rfl⟩ := h'
    rw [List.length_take] at hle'
    refine ⟨by omega, ?_⟩
    rw [List.take_take, List.length_take]
    congr 1
    omega
  | prioS =>
    intro y hy hyx
    exact h' y (h y hy hyx) ((hb y hy).trans hyx)

theorem since_put (w : W) : ∃ ahead' behind',
    put p (ahead ++ x :: behind) w = ahead' ++ x :: behind' ∧
      Since before x 0 0 ahead behind ahead' behind' p := by
  cases p with
  | fifoS => exact ⟨ahead, behind ++ [w], by simp [put], by simp [Since]⟩
  | lifoS => exact ⟨w :: ahead, behind, rfl, rfl⟩
  | cilkS => exact ⟨w :: ahead, behind, rfl, by simp [Since]⟩
  | prioS =>
    refine ⟨w :: ahead, behind, rfl, ?_⟩
    intro y hy _
    exact List.mem_cons_of_mem w hy

theorem mem_eraseIdx_of_ne {ws : List W} {i : ℕ} {y : W} (hy : y ∈ ws) (hne : ws[i]? ≠ some y) :
    y ∈ ws.eraseIdx i := by
  obtain ⟨j, hj⟩ := List.mem_iff_getElem?.mp hy
  refine List.mem_eraseIdx_iff_getElem?.mpr ⟨j, ?_, hj⟩
  rintro rfl
  exact hne hj

/-- Another task than `x` is taken, from either side of it. -/
theorem since_erase {own : Bool} {i : ℕ} (hi : i ≠ ahead.length)
    (hfront : i < ahead.length → Since before x (if own then 1 else 0) (if own then 0 else 1)
      ahead behind (ahead.eraseIdx i) behind p)
    (hback : ∀ j, i = ahead.length + 1 + j → Since before x (if own then 1 else 0)
      (if own then 0 else 1) ahead behind ahead (behind.eraseIdx j) p) :
    ∃ ahead' behind', (ahead ++ x :: behind).eraseIdx i = ahead' ++ x :: behind' ∧
      Since before x (if own then 1 else 0) (if own then 0 else 1) ahead behind ahead' behind'
        p := by
  rcases Nat.lt_or_gt_of_ne hi with hlt | hgt
  · exact ⟨_, behind, List.eraseIdx_append_of_lt_length hlt _, hfront hlt⟩
  · obtain ⟨j, rfl⟩ := Nat.exists_eq_add_of_lt hgt
    refine ⟨ahead, behind.eraseIdx j, ?_, hback j (by omega)⟩
    rw [List.eraseIdx_append_of_length_le (by omega),
      show ahead.length + j + 1 - ahead.length = j + 1 by omega]
    rfl

theorem since_take {own : Bool} {top : ℕ} {cnd : PredicatePair W} {w : W} {rest : List W}
    (hget : testAndGet p own top cnd (ahead ++ x :: behind) = some (w, rest))
    (htop : LegitTop p before (ahead ++ x :: behind) top) (hne : w ≠ x) :
    ∃ ahead' behind', rest = ahead' ++ x :: behind' ∧
      Since before x (if own then 1 else 0) (if own then 0 else 1) ahead behind ahead' behind'
        p := by
  obtain ⟨hw, -, rfl⟩ := testAndGet_eq_some hget
  have hi : position p own top (ahead ++ x :: behind) ≠ ahead.length := by
    intro heq
    rw [heq, List.getElem?_append_right le_rfl, Nat.sub_self] at hw
    exact hne (Option.some.inj hw).symm
  -- under `prioS` the task taken is none that `x` outranks
  have hkept : p = .prioS → ∀ y, before y x → y ≠ w := by
    rintro hp y hb rfl
    rcases htop hp with hnil | ⟨v, hv, hmax⟩
    · simp at hnil
    · rw [hp] at hw
      cases (Option.mem_def.mp hv).symm.trans hw
      rw [hmax x (by simp)] at hb
      cases hb
  refine since_erase hi ?_ ?_
  · intro hlt
    rw [List.getElem?_append_left hlt] at hw
    cases p with
    | fifoS =>
      have hdrop : ahead.eraseIdx 0 = ahead.drop 1 := by rw [List.eraseIdx_zero, List.drop_one]
      cases own <;> exact ⟨hlt, hdrop, List.prefix_rfl⟩
    | lifoS => rfl
    | cilkS =>
      cases own with
      | true => simp [Since]
      | false =>
        simp only [position, List.length_append, List.length_cons] at hlt
        omega
    | prioS =>
      intro y hy hb
      rw [List.mem_append] at hy ⊢
      refine hy.imp_left fun hy => mem_eraseIdx_of_ne hy ?_
      rw [hw]
      exact fun he => hkept rfl y hb (Option.some.inj he).symm
  · intro j hj
    cases p with
    | fifoS =>
      simp only [position] at hj
      omega
    | lifoS =>
      simp only [position] at hj
      omega
    | cilkS =>
      cases own with
      | true =>
        simp only [position] at hj
        omega
      | false =>
        simp only [position, List.length_append, List.length_cons] at hj
        have hpos : 1 ≤ behind.length := by omega
        refine ⟨hpos, ?_⟩
        rw [← List.dropLast_eq_eraseIdx (by omega)]
        exact List.dropLast_eq_take
    | prioS =>
      intro y hy hb
      rw [List.mem_append] at hy ⊢
      refine hy.imp_right fun hy => mem_eraseIdx_of_ne hy ?_
      rw [hj, List.getElem?_append_right (by omega),
        show ahead.length + 1 + j - ahead.length = j + 1 by omega, List.getElem?_cons_succ] at hw
      rw [hw]
      exact fun he => hkept rfl y hb (Option.some.inj he).symm

end Since

end PFunc.QueueSet

namespace PFunc.TaskManager

open LabelledRuns Atomics Event QueueSet

variable {π : Type} {cfg : Config π} {s s' : State π}

/-- A step takes a task from queue `q`, as a worker of that queue or not. -/
def State.takes (cfg : Config π) (q : ℕ) (own : Bool) (s : State π) (l : Label π)
    (s' : State π) : Bool :=
  (s'.queue q).length < (s.queue q).length && (q == cfg.queueNumber l.thread) == own

theorem since_step (hr : (system cfg).Reachable (Respawn cfg) s) {l : Label π}
    (hstep : step cfg s l = some s') {q : ℕ} {x : Handle} {ahead behind : List Handle}
    (hq : s.queue q = ahead ++ x :: behind) (hx : x ∈ s'.queue q) :
    ∃ ahead' behind', s'.queue q = ahead' ++ x :: behind' ∧
      Since (compareTaskPtr cfg s) x (if s.takes cfg q true l s' then 1 else 0)
        (if s.takes cfg q false l s' then 1 else 0) ahead behind ahead' behind' cfg.policy := by
  have hkept : ∀ u : State π, (s.queue q).length ≤ (u.queue q).length → ∀ own,
      s.takes cfg q own l u = false := by
    intro u hle own
    simp [State.takes, Nat.not_lt.mpr hle]
  have hsame : ∀ u : State π, u.queue q = s.queue q → ∃ ahead' behind',
      u.queue q = ahead' ++ x :: behind' ∧
        Since (compareTaskPtr cfg s) x (if s.takes cfg q true l u then 1 else 0)
          (if s.takes cfg q false l u then 1 else 0) ahead behind ahead' behind' cfg.policy := by
    intro u hu
    rw [hkept u (by rw [hu]) true, hkept u (by rw [hu]) false]
    exact ⟨ahead, behind, hu.trans hq, Since.refl⟩
  obtain ⟨-, he⟩ := step_effect hstep
  cases he with
  | put h i hact hc =>
    by_cases hi : q = i
    · subst hi
      have hput : (s.put cfg l.thread h q).queue q = QueueSet.put cfg.policy (s.queue q) h := by
        simp [State.put, State.goto, State.setThread]
      have hle : (s.queue q).length ≤ ((s.put cfg l.thread h q).queue q).length := by
        rw [hput]
        cases cfg.policy <;> simp [QueueSet.put]
      rw [hkept _ hle true, hkept _ hle false, hput, hq]
      exact since_put h
    · exact hsame _ (Function.update_of_ne hi _ _)
  | take p n k i top h rest hc hi hact hk hik htop hget =>
    by_cases hqi : q = i
    · subst hqi
      have htake : (s.take l.thread p q h rest).queue q = rest := by
        simp [State.take, State.goto, State.setThread]
      have hlen : rest.length < (s.queue q).length := by
        obtain ⟨hget', -, rfl⟩ := testAndGet_eq_some hget
        rw [List.length_eraseIdx_of_lt (List.getElem?_eq_some_iff.mp hget').1]
        have := (List.getElem?_eq_some_iff.mp hget').1
        omega
      have htakes : ∀ own, s.takes cfg q own l (s.take l.thread p q h rest) =
          ((q == cfg.queueNumber l.thread) == own) := by
        intro own
        simp [State.takes, htake, hlen]
      rw [htake] at hx ⊢
      have hne : h ≠ x := by
        rintro rfl
        exact not_mem_rest hr hi hget hx
      rw [hq] at hget htop
      obtain ⟨ahead', behind', hrest, hsince⟩ := since_take hget htop hne
      refine ⟨ahead', behind', hrest, ?_⟩
      rw [htakes, htakes]
      cases hown : q == cfg.queueNumber l.thread <;> simpa [hown] using hsince
    · exact hsame _ (Function.update_of_ne hqi _ _)
  | leave h hc => exact hsame _ (by rw [leave_queue])
  | _ => exact hsame _ rfl

/-- Over any run in which a task stays in its queue, the tasks ahead of it and behind it change as
`Since` says. -/
theorem while_queued (hr : (system cfg).Reachable (Respawn cfg) s) {q : ℕ} {x : Handle}
    {ahead behind : List Handle} (hq : s.queue q = ahead ++ x :: behind) {as : List (Label π)}
    (ha : (system cfg).Along (fun s l s' => Respawn cfg s l ∧ x ∈ s'.queue q) s as)
    (hrun : (system cfg).run s as = some s') :
    ∃ ahead' behind', s'.queue q = ahead' ++ x :: behind' ∧
      Since (compareTaskPtr cfg s) x ((system cfg).count (State.takes cfg q true) s as)
        ((system cfg).count (State.takes cfg q false) s as) ahead behind ahead' behind'
        cfg.policy := by
  induction as generalizing s ahead behind with
  | nil =>
    cases hrun
    exact ⟨ahead, behind, hq, Since.refl⟩
  | cons l as ih =>
    cases hs : (system cfg).step s l with
    | none => simp [System.run, hs] at hrun
    | some m =>
      obtain ⟨⟨hd, hx⟩, ha⟩ := (System.along_cons hs).mp ha
      obtain ⟨ahead₁, behind₁, hm, hsince⟩ := since_step hr hs hq hx
      obtain ⟨ahead₂, behind₂, hend, hrest⟩ := ih (hr.step hd hs) hm ha
        (by simpa [System.run, hs] using hrun)
      refine ⟨ahead₂, behind₂, hend, ?_⟩
      -- no task in the queue is given another priority
      have hkept : ∀ y ∈ s.queue q, (m.task y).attr = (s.task y).attr :=
        fun y hy => (step_effect hs).2.attr_of_active hr hd (.inl ⟨q, hy⟩)
      simp only [System.count, hs]
      refine hsince.trans hrest ?_
      intro y hy
      have hmem : y ∈ s.queue q := by
        rw [hq]
        simp only [List.mem_append, List.mem_cons] at hy ⊢
        exact hy.imp_right .inr
      simp only [compareTaskPtr, hkept y hmem, hkept x (by simp [hq])]

/-- The main thread puts three tasks on queue 0. -/
def queuedRun : List (Label ℕ) :=
  [⟨2, .spawn 0 (.new 0 false false) 0⟩, ⟨2, .tick 0⟩, ⟨2, .spawn 1 (.new 0 false false) 0⟩,
    ⟨2, .tick 0⟩, ⟨2, .spawn 2 (.new 0 false false) 0⟩, ⟨2, .tick 0⟩]

/-- The worker of queue 0 takes one of them and the worker of queue 1 another one. -/
def serveRun : List (Label ℕ) := ticks 0 2 ++ ticks 1 3

theorem while_queued_serveRun :
    let cfg := Config.small .cilkS [1, 1]
    let s := (system cfg).final queuedRun
    (system cfg).count (State.takes cfg 0 false) s serveRun = 1 ∧
      ∃ s', (system cfg).run s serveRun = some s' ∧
        ∃ ahead' behind', s'.queue 0 = ahead' ++ 1 :: behind' ∧
          Since (compareTaskPtr cfg s) 1 ((system cfg).count (State.takes cfg 0 true) s serveRun)
            ((system cfg).count (State.takes cfg 0 false) s serveRun) [2] [0] ahead' behind'
            .cilkS := by
  have ha : (system (.small .cilkS [1, 1])).Along
      (fun s l s' => Respawn (.small .cilkS [1, 1]) s l ∧ 1 ∈ s'.queue 0)
      ((system (.small .cilkS [1, 1])).final queuedRun) serveRun := by decide
  obtain ⟨s', hrun⟩ := System.run_of_along ha
  exact ⟨by decide, s', hrun,
    while_queued (System.reachable_final (by decide)) (by decide) ha hrun⟩

end PFunc.TaskManager
