import PFunc.CyclicBarrier
import PFunc.Locks
import PFunc.Task
import Mathlib.Data.Nat.Bits

/-!
# The barrier of a group

The tasks of a group call `group::barrier` again and again. `group_lock` is an exclusive
lock; every access to the phase and the counter is a step, and so is every attempt to
lock. Inside `progress_barrier` a task runs others, which do not touch the group.
-/

namespace PFunc.GroupBarrier

open LabelledRuns CyclicBarrier Locks

inductive Pc where
  | outside
  | acquiring
  | reading
  | incrementing (myPhase : Bool)
  | comparing (myPhase : Bool)
  | resetting
  | flipping
  /-- the last to arrive, before `unlock` -/
  | unlocking
  /-- the others, before `unlock` -/
  | yielding (myPhase : Bool)
  | polling (myPhase : Bool)
  /-- in `progress_barrier` -/
  | progressing (myPhase : Bool)
  | returning
  deriving DecidableEq

/-- The program points at which a task owns the lock of the group. -/
def Pc.holds : Pc → Bool
  | .reading => true
  | .incrementing _ => true
  | .comparing _ => true
  | .resetting => true
  | .flipping => true
  | .unlocking => true
  | .yielding _ => true
  | _ => false

/-- `calls` and `rounds` record what has happened. -/
structure State (n : ℕ) where
  group : Group
  groupLock : Option (Fin n)
  pc : Fin n → Pc
  calls : Fin n → ℕ
  rounds : Rounds (Fin n)

inductive Act where
  /-- the call of `barrier`, or the next step inside -/
  | next
  /-- a step of a task that `progress_barrier` runs -/
  | other
  deriving DecidableEq

structure Label (n : ℕ) where
  task : Fin n
  act : Act
  deriving DecidableEq

variable {n : ℕ}

def State.goto (s : State n) (p : Fin n) (c : Pc) : State n :=
  { s with pc := Function.update s.pc p c }

/-- The dispatch of `barrier`. -/
def barrier (g : Group) : Pc :=
  if g.groupSize > 1 then
    match g.typeOfBarrier with
    | .spin => .acquiring
    | .steal => .acquiring
    | .wait => .returning
  else .returning

/-- `barrier`, `barrier_spin` and `barrier_steal`. -/
def next (s : State n) (p : Fin n) : State n :=
  match s.pc p with
  | .outside =>
    { s.goto p (barrier s.group) with calls := Function.update s.calls p (s.calls p + 1) }
  | .acquiring =>
    if s.groupLock = none then { s.goto p .reading with groupLock := some p } else s
  | .reading => s.goto p (.incrementing s.group.barrierPhase)
  | .incrementing myPhase =>
    { s.goto p (.comparing myPhase) with
      group := { s.group with barrierCount := s.group.barrierCount + 1 }
      rounds := s.rounds.arrive p }
  | .comparing myPhase =>
    s.goto p (if s.group.barrierCount = s.group.groupSize then .resetting else .yielding myPhase)
  | .resetting =>
    { s.goto p .flipping with
      group := { s.group with barrierCount := 0 }
      rounds := s.rounds.reset }
  | .flipping =>
    { s.goto p .unlocking with
      group := { s.group with barrierPhase := !s.group.barrierPhase }
      rounds := s.rounds.flip p }
  | .unlocking => { s.goto p .returning with groupLock := none }
  | .yielding myPhase => { s.goto p (.polling myPhase) with groupLock := none }
  | .polling myPhase =>
    if myPhase = s.group.barrierPhase then
      match s.group.typeOfBarrier with
      | .steal => s.goto p (.progressing myPhase)
      | _ => s
    else s.goto p .returning
  | .progressing myPhase => s.goto p (.polling myPhase)
  | .returning => { s.goto p .outside with rounds := s.rounds.depart p }

def step (s : State n) (l : Label n) : Option (State n) :=
  match l.act, s.pc l.task with
  | .next, _ => some (next s l.task)
  | .other, .progressing _ => some s
  | .other, _ => none

def system (n : ℕ) (barrier : BarrierType) : System (State n) (Label n) where
  initial := ⟨.new n barrier, none, fun _ => .outside, fun _ => 0, .initial⟩
  step := step

/-! ### The counter and the phase as a cyclic barrier -/

def Pc.place : Pc → Place Bool
  | .outside => .outside
  | .acquiring => .outside
  | .reading => .outside
  | .incrementing myPhase => .reading myPhase
  | .comparing myPhase => .waiting myPhase
  | .resetting => .resetting
  | .flipping => .flipping
  | .unlocking => .released
  | .yielding myPhase => .waiting myPhase
  | .polling myPhase => .waiting myPhase
  | .progressing myPhase => .waiting myPhase
  | .returning => .released

theorem Pc.eq_flipping {c : Pc} (h : c.place = .flipping) : c = .flipping := by
  cases c <;> first | rfl | cases h

def State.sense (s : State n) : Sense (Fin n) Bool :=
  .ofPc Pc.place s.group.barrierCount s.group.barrierPhase s.pc s.rounds

structure State.Invariant (barrier : BarrierType) (s : State n) : Prop where
  size : s.group.groupSize = n
  type : s.group.typeOfBarrier = barrier
  locked : Locked Pc.holds s.pc s.groupLock
  calls : ∀ p, s.calls p = s.rounds.left p + if s.pc p = .outside then 0 else 1

namespace State.Invariant

variable {barrier : BarrierType} {s : State n}

theorem calls_goto (h : s.Invariant barrier) {p : Fin n} {c : Pc} (hp : s.pc p ≠ .outside)
    (hc : c ≠ .outside) (q : Fin n) :
    s.calls q = s.rounds.left q + if (s.goto p c).pc q = .outside then 0 else 1 := by
  have hq := h.calls q
  by_cases hqp : q = p
  · subst hqp
    simpa [State.goto, hc, hp] using hq
  · simpa [State.goto, hqp] using hq

theorem next (h : s.Invariant barrier) (p : Fin n) : (next s p).Invariant barrier := by
  unfold GroupBarrier.next
  split <;> rename_i hpc
  case h_1 =>
    refine ⟨h.size, h.type, h.locked.keep ?_, ?_⟩
    · unfold GroupBarrier.barrier
      split
      · split <;> simp [Pc.holds]
      · simp [Pc.holds]
    · intro q
      have hq := h.calls q
      by_cases hqp : q = p
      · subst hqp
        rw [hpc] at hq
        unfold GroupBarrier.barrier
        split
        · split <;> simpa [State.goto] using hq
        · simpa [State.goto] using hq
      · simpa [State.goto, hqp] using hq
  case h_2 =>
    split <;> rename_i hl
    · exact ⟨h.size, h.type, (hl ▸ h.locked).acquire, h.calls_goto (by simp [hpc]) (by simp)⟩
    · exact h
  case h_5 =>
    refine ⟨h.size, h.type, h.locked.keep (by simp [hpc, Pc.holds]), ?_⟩
    split
    · exact h.calls_goto (by simp [hpc]) (by simp)
    · exact h.calls_goto (by simp [hpc]) (by simp)
  case h_8 =>
    exact ⟨h.size, h.type, h.locked.unlock (by simp [hpc, Pc.holds]) (by simp [Pc.holds]),
      h.calls_goto (by simp [hpc]) (by simp)⟩
  case h_9 =>
    exact ⟨h.size, h.type, h.locked.unlock (by simp [hpc, Pc.holds]) (by simp [Pc.holds]),
      h.calls_goto (by simp [hpc]) (by simp)⟩
  case h_10 =>
    split
    · split
      · exact ⟨h.size, h.type, h.locked.keep (by simp [Pc.holds]),
          h.calls_goto (by simp [hpc]) (by simp)⟩
      · exact h
    · exact ⟨h.size, h.type, h.locked.keep (by simp [Pc.holds]),
        h.calls_goto (by simp [hpc]) (by simp)⟩
  case h_12 =>
    refine ⟨h.size, h.type, h.locked.keep (by simp [Pc.holds]), ?_⟩
    intro q
    have hq := h.calls q
    by_cases hqp : q = p
    · subst hqp
      rw [hpc] at hq
      simpa [State.goto, Rounds.depart, Visits.leave] using hq
    · simpa [State.goto, Rounds.depart, Visits.leave, hqp] using hq
  all_goals
    exact ⟨h.size, h.type, h.locked.keep (by simp [hpc, Pc.holds]),
      h.calls_goto (by simp [hpc]) (by simp)⟩

/-- A step of a task in `barrier_spin` or `barrier_steal`, seen from the counter and the phase. -/
theorem next_moves (h : s.Invariant barrier) (hb : barrier ≠ .wait) (hn : 1 < n) (p : Fin n) :
    Relation.ReflTransGen (Sense.Move not) s.sense (GroupBarrier.next s p).sense := by
  have stay : ∀ {c : Pc}, c.place = (s.pc p).place →
      Relation.ReflTransGen (Sense.Move not) s.sense (s.goto p c).sense := by
    intro c hc
    rw [show (s.goto p c).sense = s.sense from Sense.ofPc_update_same _ _ _ hc]
  have hplace : s.sense.place p = (s.pc p).place := rfl
  unfold GroupBarrier.next
  split <;> rename_i hpc <;> rw [hpc] at stay hplace
  case h_1 =>
    apply stay
    unfold GroupBarrier.barrier
    rw [if_pos (by rw [h.size]; exact hn), h.type]
    cases barrier <;> simp [Pc.place] at hb ⊢
  case h_2 =>
    split
    · exact stay rfl
    · exact .refl
  case h_3 =>
    exact Sense.moves_update not rfl (.read _ p hplace)
  case h_4 m =>
    exact Sense.moves_update not rfl (.arrive _ p m hplace)
  case h_5 m =>
    split <;> rename_i hcount
    · refine Sense.moves_update not rfl (.elect _ p m hplace ?_ ?_)
      · rw [Fintype.card_fin]
        exact hcount.trans h.size
      · intro q hq
        have hholds : (s.pc q).holds := by
          change (s.pc q).place.closing at hq
          cases hq' : s.pc q <;> simp [hq', Pc.place, Place.closing] at hq ⊢ <;> simp [Pc.holds]
        obtain rfl := h.locked.unique hholds (by rw [hpc]; rfl)
        change (s.pc q).place.closing at hq
        rw [hpc] at hq
        exact hq
    · exact stay rfl
  case h_6 =>
    exact Sense.moves_update not rfl (.reset _ p hplace)
  case h_7 =>
    exact Sense.moves_update not rfl (.flip _ p hplace)
  case h_10 m =>
    split <;> rename_i hphase
    · split
      · exact stay rfl
      · exact .refl
    · exact Sense.moves_update not rfl (.release _ p m hplace hphase)
  case h_12 =>
    exact Sense.moves_update not rfl (.depart _ p hplace)
  all_goals exact stay rfl

end State.Invariant

theorem invariant_initial (n : ℕ) (barrier : BarrierType) :
    (system n barrier).initial.Invariant barrier := by
  refine ⟨rfl, rfl, ?_, ?_⟩
  · intro p hp
    simp [system, Pc.holds] at hp
  · intro p
    rfl

variable {barrier : BarrierType} {s : State n}

theorem step_eq {s' : State n} {l : Label n} (h : step s l = some s') :
    s' = next s l.task ∨ s' = s := by
  unfold step at h
  split at h
  · exact .inl (Option.some.inj h).symm
  · exact .inr (Option.some.inj h).symm
  · cases h

theorem invariant_reachable {D : State n → Label n → Prop}
    (hr : (system n barrier).Reachable D s) : s.Invariant barrier := by
  apply hr.invariant (invariant_initial n barrier)
  intro s l s' h _ hstep
  rcases step_eq hstep with rfl | rfl
  · exact h.next l.task
  · exact h

/-- `k` flips after its construction, the group is in this phase. -/
theorem refines_sense (hb : barrier ≠ .wait) (hn : 1 < n) {D : State n → Label n → Prop} :
    (system n barrier).Refines D (Sense.Move not) (.initial false) State.sense where
  initial := rfl
  step := by
    intro s l s' hr _ hstep
    rcases step_eq hstep with rfl | rfl
    · exact (invariant_reachable hr).next_moves hb hn l.task
    · exact .refl

theorem sense_reachable (hb : barrier ≠ .wait) (hn : 1 < n) {D : State n → Label n → Prop}
    (hr : (system n barrier).Reachable D s) : s.sense.Invariant Nat.bodd := by
  apply (refines_sense hb hn).invariant (Sense.invariant_initial rfl) _ hr
  intro x y hx hm
  exact hx.move Nat.bodd_succ hm

/-- A task that has been called back to the outside has entered every round it left. -/
theorem entered_le_calls (h : s.Invariant barrier) (hs : s.sense.Invariant Nat.bodd) (p : Fin n) :
    s.rounds.entered p ≤ s.calls p := by
  have hcalls := h.calls p
  have hplaced := hs.placed p
  have hle := hs.rounds.entered_le p
  by_cases hpc : s.pc p = .outside
  · change Sense.Placed Nat.bodd s.rounds p (s.pc p).place at hplaced
    rw [hpc] at hplaced
    change s.rounds.entered p = s.rounds.left p at hplaced
    omega
  · rw [if_neg hpc] at hcalls
    change s.rounds.entered p ≤ s.rounds.left p + 1 at hle
    omega

/-- No task returns from a call before every task has made as many calls. -/
def State.Synchronized (s : State n) : Prop := ∀ p q, s.rounds.left p ≤ s.calls q

theorem synchronized_reachable (hb : barrier ≠ .wait) (hn : 1 < n)
    {D : State n → Label n → Prop} (hr : (system n barrier).Reachable D s) : s.Synchronized := by
  intro p q
  have hs := sense_reachable hb hn hr
  have hleft : s.rounds.left p ≤ s.rounds.entered q := hs.rounds.left_le_entered p q
  have hcalls := entered_le_calls (invariant_reachable hr) hs q
  omega

/-- A call that returns at once, as that of `BARRIER_WAIT` does. -/
def passRun (p : Fin n) : List (Label n) := [⟨p, .next⟩, ⟨p, .next⟩]

/-- Whoever calls the barrier of a group with `BARRIER_WAIT` passes it alone. -/
theorem passRun_wait (p : Fin n) : ∃ s, (system n .wait).run (system n .wait).initial (passRun p) =
    some s ∧ s.rounds.left p = 1 ∧ ∀ q ≠ p, s.calls q = 0 := by
  refine ⟨_, rfl, ?_, ?_⟩
  · simp [next, system, State.goto, GroupBarrier.barrier, Group.new, Rounds.depart, Visits.leave,
      Rounds.initial, Visits.initial]
  · intro q hq
    simp [next, system, State.goto, GroupBarrier.barrier, Group.new, hq]

/-- The types `BARRIER_SPIN` and `BARRIER_STEAL` are barriers, `BARRIER_WAIT` is none. -/
theorem synchronized_iff (n : ℕ) (hn : 2 ≤ n) (barrier : BarrierType) :
    (∀ s, (system n barrier).Reachable (fun _ _ => True) s → s.Synchronized) ↔
      barrier ≠ .wait := by
  constructor
  · rintro h rfl
    obtain ⟨s, hrun, hleft, hcalls⟩ := passRun_wait (⟨0, by omega⟩ : Fin n)
    have halong : (system n .wait).Along (fun _ _ _ => True) (system n .wait).initial
        (passRun ⟨0, by omega⟩) := by
      apply System.along_labels.mpr
      exact ⟨by rw [hrun]; rfl, fun _ _ => trivial⟩
    have hone : s.rounds.left ⟨0, by omega⟩ ≤ s.calls ⟨1, by omega⟩ :=
      h s (System.Reachable.initial.run halong hrun) _ _
    rw [hleft, hcalls _ (by simp)] at hone
    omega
  · intro hb s hr
    exact synchronized_reachable hb (by omega) hr

theorem synchronized_iff_two :
    (∀ s, (system 2 .steal).Reachable (fun _ _ => True) s → s.Synchronized) ↔
      BarrierType.steal ≠ .wait :=
  synchronized_iff 2 (by decide) .steal

/-- In a group of two, task 0 returns from its first call before task 1 has made one. -/
theorem wait_passes_alone :
    ¬∀ (n : ℕ), 2 ≤ n → ∀ (barrier : BarrierType) (s : State n),
      (system n barrier).Reachable (fun _ _ => True) s → s.Synchronized := by
  intro h
  have hr : (system 2 .wait).Reachable (fun _ _ => True)
      ((system 2 .wait).final (passRun 0)) := System.reachable_final (by decide)
  exact absurd (h 2 (by decide) .wait _ hr 0 1) (by decide)

/-- What the next step of a task does to the phase: who is about to flip flips it for the round it
has entered, as the only one, and nobody else does. -/
structure State.FlipsOnce (s : State n) (p : Fin n) : Prop where
  flip : s.pc p = .flipping → (next s p).group.barrierPhase = !s.group.barrierPhase ∧
    (next s p).pc p = .unlocking ∧ (next s p).rounds.flips = s.rounds.entered p ∧
    s.rounds.entered p = s.rounds.flips + 1 ∧
    (next s p).rounds.flippers (s.rounds.entered p) = [p]
  keep : s.pc p ≠ .flipping → (next s p).group.barrierPhase = s.group.barrierPhase ∧
    (next s p).rounds.flips = s.rounds.flips ∧ (next s p).rounds.flippers = s.rounds.flippers

/-- What the phase and the counter say about the rounds. -/
structure State.SenseReversing (s : State n) : Prop where
  /-- the counter's round begins where the last to arrive resets it -/
  count : s.group.barrierCount =
    (Finset.univ.filter fun p => s.rounds.entered p = s.rounds.resets + 1).card
  count_le : s.group.barrierCount ≤ n
  resets : s.rounds.resets = s.rounds.flips + if ∃ p, s.pc p = .flipping then 1 else 0
  /-- the bit tells how many rounds have been flipped, and each of them has been once -/
  phase : s.group.barrierPhase = s.rounds.flips.bodd
  flippers : ∀ k, (s.rounds.flippers k).length = if 1 ≤ k ∧ k ≤ s.rounds.flips then 1 else 0
  flips : ∀ p, s.FlipsOnce p
  /-- no round is left before it is flipped -/
  left_flipped : ∀ p, s.rounds.left p ≤ s.rounds.flips
  polling : ∀ p m, s.pc p = .polling m →
    ((next s p).pc p = .returning ↔ s.rounds.flips = s.rounds.entered p)
  left_le : ∀ p q, s.rounds.left p ≤ s.rounds.left q + 1

/-- A step elsewhere leaves the phase and its history alone. -/
theorem next_keeps_phase {p : Fin n} (hp : s.pc p ≠ .flipping) :
    (next s p).group.barrierPhase = s.group.barrierPhase ∧
      (next s p).rounds.flips = s.rounds.flips ∧
      (next s p).rounds.flippers = s.rounds.flippers := by
  unfold next
  split
  case h_2 => split <;> exact ⟨rfl, rfl, rfl⟩
  case h_7 hpc => exact absurd hpc hp
  case h_10 => split <;> [split; skip] <;> exact ⟨rfl, rfl, rfl⟩
  all_goals exact ⟨rfl, rfl, rfl⟩

theorem flipsOnce (h : s.sense.Invariant Nat.bodd) (p : Fin n) : s.FlipsOnce p := by
  refine ⟨fun hp => ?_, next_keeps_phase⟩
  have hplaced : Sense.Placed Nat.bodd s.rounds p (s.pc p).place := h.placed p
  rw [hp] at hplaced
  have hplaced : s.rounds.entered p = s.rounds.left p + 1 ∧
    s.rounds.resets = s.rounds.flips + 1 := hplaced
  have hresets : s.rounds.resets ≤ s.rounds.entered p := h.rounds.resets_le_entered p
  have hleft : s.rounds.left p ≤ s.rounds.flips := h.rounds.left_le_flips p
  have hround : s.rounds.entered p = s.rounds.flips + 1 := by omega
  have hnone : s.rounds.flippers (s.rounds.entered p) = [] := by
    have hlength : (s.rounds.flippers (s.rounds.entered p)).length =
        if 1 ≤ s.rounds.entered p ∧ s.rounds.entered p ≤ s.rounds.flips then 1 else 0 :=
      h.rounds.flippers (s.rounds.entered p)
    rw [if_neg (by omega)] at hlength
    exact List.length_eq_zero_iff.mp hlength
  simp only [next, hp]
  refine ⟨trivial, Function.update_self _ _ _, hround.symm, hround, ?_⟩
  simp [Rounds.flip, hnone]

theorem sense_reversing (n : ℕ) (hn : 2 ≤ n) (barrier : BarrierType) (hb : barrier ≠ .wait)
    (s : State n) (hr : (system n barrier).Reachable (fun _ _ => True) s) : s.SenseReversing := by
  have h := sense_reachable hb (by omega) hr
  have hcount : s.group.barrierCount = s.rounds.arrived.card := h.count
  refine ⟨hcount, ?_, ?_, h.phase, h.rounds.flippers, flipsOnce h, h.rounds.left_le_flips, ?_, ?_⟩
  · rw [hcount]
    simpa using Finset.card_le_univ s.rounds.arrived
  · by_cases hflipping : ∃ p, s.pc p = .flipping
    · obtain ⟨p, hp⟩ := hflipping
      have hplaced : Sense.Placed Nat.bodd s.rounds p (s.pc p).place := h.placed p
      rw [hp] at hplaced
      rw [if_pos ⟨p, hp⟩]
      exact hplaced.2
    · rw [if_neg hflipping]
      rcases h.flipper with hf | ⟨p, hp⟩
      · exact hf
      · exact absurd ⟨p, Pc.eq_flipping hp⟩ hflipping
  · intro p m hp
    have hplace : s.sense.place p = .waiting m := congrArg Pc.place hp
    have hiff : m ≠ s.group.barrierPhase ↔ _ := h.ne_phase_iff hplace fun k => by simp
    rw [← show _ ↔ s.rounds.flips = s.rounds.entered p from hiff]
    by_cases hm : m = s.group.barrierPhase
    · have hstays : (next s p).pc p ≠ .returning := by
        cases htype : s.group.typeOfBarrier <;> simp [next, hp, hm, htype, State.goto]
      exact iff_of_false hstays (not_not_intro hm)
    · exact iff_of_true (by simp [next, hp, hm, State.goto]) hm
  · intro p q
    have hpq : s.rounds.left p ≤ s.rounds.entered q := h.rounds.left_le_entered p q
    have hq : s.rounds.entered q ≤ s.rounds.left q + 1 := h.rounds.entered_le q
    omega

/-- A round of two tasks in a spinning barrier: task 0 polls while task 1 flips and leaves, and
leaves after it. -/
def roundRun : List (Label 2) :=
  List.replicate 7 ⟨0, .next⟩ ++ List.replicate 9 ⟨1, .next⟩ ++ List.replicate 2 ⟨0, .next⟩

/-- After a whole round, task 0 polls in the second one, which task 1 has just flipped. -/
def meetRun : List (Label 2) := roundRun ++ roundRun.take 14

theorem sense_reversing_meetRun :
    let s := (system 2 .spin).final meetRun
    s.SenseReversing ∧ s.rounds.left 0 = 1 ∧ s.rounds.flips = 2 ∧ s.group.barrierPhase = false ∧
      s.rounds.flippers 1 = [1] ∧ s.rounds.flippers 2 = [1] ∧ s.pc 0 = .polling true ∧
      (next s 0).pc 0 = .returning :=
  ⟨sense_reversing 2 (by decide) .spin (by decide) _ (System.reachable_final (by decide)),
    by decide, by decide, by decide, by decide, by decide, by decide, by decide⟩

end PFunc.GroupBarrier
