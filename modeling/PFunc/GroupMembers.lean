import PFunc.Ledger
import PFunc.NestedWait
import PFunc.Task

/-!
# The members of a group

One group, the tasks spawned with it and any number of calls of `wait` and `test`, in the
build with exceptions. Of the pointer `except` of a task only its nullness matters here. A
sleep in `event<waitable_event>::wait` may end at any time, which covers its two builds.
Every spawn is an entry of a ledger, and the spawns that join the group are its members.
-/

namespace PFunc.GroupMembers

open LabelledRuns Atomics Event

/-- What is noted on a spawn. -/
inductive Note where
  /-- a `wait` begins -/
  | begun
  /-- a `wait` returns, or a `test` returns true -/
  | returned
  /-- a `wait` or `test` throws the exception of the task -/
  | rethrown
  /-- a `wait` exits by the exception of another task, which it has run -/
  | unwound
  deriving DecidableEq

/-- The program points of `event<waitable_event>::wait`. -/
inductive Waiting where
  | check
  | asleep
  | decrement
  | deactivate
  deriving DecidableEq

inductive Pc where
  | progress (pc : NestedWait.Pc)
  | waiting (pc : Waiting)
  | testing (nested : Bool) (pc : EventBase.TestPc)
  /-- before `leave_group` and the return of true -/
  | leaving
  deriving DecidableEq

/-- A call of `wait` or `test` that has begun, on spawn number `spawn` of `handle`. -/
structure Call where
  handle : Handle
  spawn : ℕ
  pc : Pc
  deriving DecidableEq

variable {π : Type}

/-- `event<waitable_event>::wait`; there is no program point once it has returned. -/
def Waiting.next (e : EventBase) : Waiting → EventBase × Option Waiting
  | .check => (e, some (if e.eventState = activeIncomplete then .asleep else .decrement))
  | .asleep => (e, some .decrement)
  | .decrement =>
    let r := e.takeNotice
    (r.1, if r.2 = 0 then some .deactivate else none)
  | .deactivate => (e.deactivate, none)

/-- The next step of a call before it leaves the group: the task, and the program point
unless `test` has returned false. -/
def Pc.next (maxAttempts : ℕ) (main : Bool) (x : Task π) (found : Bool) :
    Pc → Option (Task π × Option Pc)
  | .progress pc =>
    (NestedWait.progressWait maxAttempts main x.testingCompl found pc).map fun r =>
      ({ x with testingCompl := r.1 },
        some (if r.2 = .returned then .leaving else .progress r.2))
  | .waiting pc =>
    let r := pc.next x.waitingCompl
    some ({ x with waitingCompl := r.1 }, some (match r.2 with
      | some pc' => .waiting pc'
      | none => .leaving))
  | .testing nested pc =>
    let r := if nested then x.testingCompl.test pc else x.waitingCompl.test pc
    some (if nested then { x with testingCompl := r.1 } else { x with waitingCompl := r.1 },
      match r.2 with
      | .inl pc' => some (.testing nested pc')
      | .inr true => some .leaving
      | .inr false => none)
  | .leaving => none

structure State (π : Type) where
  task : Handle → Task π
  /-- the pointer `except` of a task is set -/
  except : Handle → Bool
  /-- the task is queued or runs -/
  pending : Handle → Bool
  group : Group
  call : ℕ → Option Call
  ledger : Ledger Handle Note
  /-- how many members the group had at each spawn -/
  seat : ℕ → ℕ

inductive Label (π : Type) where
  | spawn (h : Handle) (attr : Attribute π)
  /-- the functor of the task throws -/
  | throws (h : Handle)
  | notify (h : Handle)
  | wait (c : ℕ) (h : Handle)
  | test (c : ℕ) (h : Handle)
  /-- the next step of a call; `found` is what `task_queue->get` answers -/
  | next (c : ℕ) (found : Bool)
  /-- `notify` of a task that the call has run throws -/
  | unwind (c : ℕ)

namespace State

/-- The spawns that have joined the group, and no call on them has left it. -/
def members (s : State π) : Finset ℕ := s.ledger.select fun _ noted => noted .returned = 0

/-- The spawns that no `wait` or `test` has brought to an end. -/
def active (s : State π) : Finset ℕ :=
  s.ledger.select fun _ noted => noted .returned + noted .rethrown + noted .unwound = 0

/-- The spawns whose completion has not been delivered to all their waiters. -/
def outstanding (s : State π) : Finset ℕ :=
  s.ledger.select fun quota noted => noted .returned + noted .rethrown < quota

/-- The group has address 0. -/
def spawn (s : State π) (h : Handle) (attr : Attribute π) : State π :=
  let r := (s.task h).spawn attr 0 s.group
  { s with
    task := Function.update s.task h r.1
    except := Function.update s.except h false
    pending := Function.update s.pending h true
    group := r.2
    ledger := s.ledger.openEntry h attr.joinGroup attr.numWaiters.toNat
    seat := Function.update s.seat s.ledger.opened s.members.card }

/-- The worker that has run the task calls `notify`, which may throw instead. -/
def notify (s : State π) (h : Handle) : State π :=
  { s with
    task := if s.except h then s.task else Function.update s.task h (s.task h).notify
    pending := Function.update s.pending h false }

def note (s : State π) (k : ℕ) (e : Note) : State π := { s with ledger := s.ledger.note k e }

def goto (s : State π) (c : ℕ) (x : Option Call) : State π :=
  { s with call := Function.update s.call c x }

/-- `PFUNC_CHECK_AND_RETHROW ()` at the beginning of a call on spawn `k` of `h`. -/
def enter (s : State π) (c : ℕ) (h : Handle) (k : ℕ) (pc : Pc) : State π :=
  if s.except h then s.note k .rethrown else s.goto c (some ⟨h, k, pc⟩)

/-- The end of a `wait`, or of a `test` that returns true. -/
def leave (s : State π) (c : ℕ) (x : Call) : State π :=
  { (s.goto c none).note x.spawn .returned with
    group := if (s.task x.handle).attr.joinGroup then s.group.leaveGroup else s.group }

/-- `PFUNC_CATCH_AND_RETHROW` of `wait` -/
def unwind (s : State π) (c : ℕ) (x : Call) : State π :=
  { (s.goto c none).note x.spawn .unwound with except := Function.update s.except x.handle true }

def access (s : State π) (c : ℕ) (x : Call) (r : Task π × Option Pc) : State π :=
  { s.goto c (r.2.map fun pc => { x with pc := pc }) with
    task := Function.update s.task x.handle r.1 }

end State

/-- `main` are the calls made by the main thread. -/
def step (maxAttempts : ℕ) (main : ℕ → Bool) (s : State π) : Label π → Option (State π)
  | .spawn h attr =>
    if s.pending h = false ∧ attr.numWaiters ≠ 0 then some (s.spawn h attr) else none
  | .throws h =>
    if s.pending h then some { s with except := Function.update s.except h true } else none
  | .notify h => if s.pending h then some (s.notify h) else none
  | .wait c h =>
    match s.call c, s.ledger.latest h with
    | none, some k =>
      some ((s.note k .begun).enter c h k
        (if (s.task h).attr.isNested then .progress .notCalled else .waiting .check))
    | _, _ => none
  | .test c h =>
    match s.call c, s.ledger.latest h with
    | none, some k => some (s.enter c h k (.testing (s.task h).attr.isNested .incomplete))
    | _, _ => none
  | .next c found =>
    match s.call c with
    | none => none
    | some x =>
      if x.pc = .leaving then some (s.leave c x)
      else (x.pc.next maxAttempts (main c) (s.task x.handle) found).map (s.access c x)
  | .unwind c =>
    match s.call c with
    | none => none
    | some x => if x.pc = .progress .running then some (s.unwind c x) else none

/-- A group of size `n` without members. -/
def system (lowest : π) (n : Word) (barrier : BarrierType) (maxAttempts : ℕ) (main : ℕ → Bool) :
    System (State π) (Label π) where
  initial :=
    { task := fun _ => .new lowest
      except := fun _ => false
      pending := fun _ => false
      group := .new n.toNat barrier
      call := fun _ => none
      ledger := .initial
      seat := fun _ => 0 }
  step := step maxAttempts main

/-! ### The count of the members -/

/-- Spawn `k` has joined the group and is due one more delivery. -/
def State.Last (s : State π) (k : ℕ) : Prop :=
  k ∈ s.ledger.members ∧
    s.ledger.noted k .returned + s.ledger.noted k .rethrown + 1 = s.ledger.quota k

/-- `rank_token` counts the spawns whose completion is still to be delivered. -/
def State.Accounted (s : State π) : Prop :=
  s.group.rankToken = BitVec.ofNat 32 s.outstanding.card

/-- A call that ends normally leaves the group iff it makes the last delivery, and a call
that throws the exception of the task does not make it. -/
def Settles (s : State π) : Label π → Prop
  | .wait c h => s.call c = none → s.except h → ∀ k ∈ s.ledger.latest h, ¬s.Last k
  | .test c h => s.call c = none → s.except h → ∀ k ∈ s.ledger.latest h, ¬s.Last k
  | .next c _ => ∀ x ∈ s.call c, x.pc = .leaving →
      ((s.task x.handle).attr.joinGroup ↔ s.Last x.spawn)
  | _ => True

variable {maxAttempts : ℕ} {main : ℕ → Bool} {s s' : State π}

structure State.Numbered (s : State π) : Prop where
  ledger : s.ledger.Numbered
  call : ∀ c, ∀ x ∈ s.call c, x.spawn < s.ledger.opened

theorem Pc.next_toCopy {main : Bool} {x : Task π} {found : Bool} {pc : Pc} {r : Task π × Option Pc}
    (h : pc.next maxAttempts main x found = some r) : r.1.toCopy = x.toCopy := by
  cases pc with
  | progress pc =>
    simp only [Pc.next, Option.map_eq_some_iff] at h
    obtain ⟨_, _, rfl⟩ := h
    rfl
  | waiting pc =>
    cases h
    rfl
  | testing nested pc =>
    cases h
    cases nested <;> rfl
  | leaving => cases h

theorem spawn_group {x : Task π} {attr : Attribute π} {g : Group} :
    (x.spawn attr 0 g).2 = if attr.joinGroup then g.joinGroup.1 else g := by
  simp only [Task.spawn, Task.setGroup]
  split <;> rfl

@[simp] theorem spawn_groupSize {x : Task π} {attr : Attribute π} {g : Group} :
    (x.spawn attr 0 g).2.groupSize = g.groupSize := by
  rw [spawn_group]
  split <;> rfl

theorem leave_rankToken {c : ℕ} {x : Call} :
    (s.leave c x).group.rankToken = if (s.task x.handle).attr.joinGroup then
      (fetchAndAdd s.group.rankToken (-1)).1 else s.group.rankToken := by
  simp only [State.leave]
  split
  · simp only [Group.leaveGroup]
  · rfl

@[simp] theorem leave_groupSize {c : ℕ} {x : Call} :
    (s.leave c x).group.groupSize = s.group.groupSize := by
  simp only [State.leave]
  split
  · exact s.group.leaveGroup_groupSize
  · rfl

/-- What one step can do. -/
inductive Move (s : State π) : Label π → State π → Prop
  | spawn (h : Handle) (attr : Attribute π) (hq : attr.numWaiters ≠ 0) :
      Move s (.spawn h attr) (s.spawn h attr)
  | throws (h : Handle) :
      Move s (.throws h) { s with except := Function.update s.except h true }
  | notify (h : Handle) : Move s (.notify h) (s.notify h)
  | wait {c : ℕ} {h : Handle} {k : ℕ} {pc : Pc} (hc : s.call c = none)
      (hk : k ∈ s.ledger.latest h) : Move s (.wait c h) ((s.note k .begun).enter c h k pc)
  | test {c : ℕ} {h : Handle} {k : ℕ} {pc : Pc} (hc : s.call c = none)
      (hk : k ∈ s.ledger.latest h) : Move s (.test c h) (s.enter c h k pc)
  | leave {c : ℕ} {found : Bool} {x : Call} (hx : x ∈ s.call c) (hpc : x.pc = .leaving) :
      Move s (.next c found) (s.leave c x)
  | access {c : ℕ} {found : Bool} {x : Call} {r : Task π × Option Pc} (hx : x ∈ s.call c)
      (hpc : x.pc ≠ .leaving) (hr : r.1.toCopy = (s.task x.handle).toCopy) :
      Move s (.next c found) (s.access c x r)
  | unwind {c : ℕ} {x : Call} (hx : x ∈ s.call c) : Move s (.unwind c) (s.unwind c x)

theorem move_of_step {l : Label π} (hs : step maxAttempts main s l = some s') : Move s l s' := by
  cases l with
  | spawn h attr =>
    simp only [step] at hs
    split at hs
    · rename_i hq
      cases hs
      exact .spawn h attr hq.2
    · cases hs
  | throws h =>
    simp only [step] at hs
    split at hs
    · cases hs
      exact .throws h
    · cases hs
  | notify h =>
    simp only [step] at hs
    split at hs
    · cases hs
      exact .notify h
    · cases hs
  | wait c h =>
    simp only [step] at hs
    split at hs
    · rename_i hc hk
      cases hs
      exact .wait hc hk
    · cases hs
  | test c h =>
    simp only [step] at hs
    split at hs
    · rename_i hc hk
      cases hs
      exact .test hc hk
    · cases hs
  | next c found =>
    simp only [step] at hs
    split at hs
    · cases hs
    · rename_i x hx
      split at hs
      · rename_i hpc
        cases hs
        exact .leave hx hpc
      · rename_i hpc
        obtain ⟨r, hr, rfl⟩ := Option.map_eq_some_iff.mp hs
        exact .access hx hpc (Pc.next_toCopy hr)
  | unwind c =>
    simp only [step] at hs
    split at hs
    · cases hs
    · rename_i x hx
      split at hs
      · cases hs
        exact .unwind hx
      · cases hs

theorem numbered_initial (lowest : π) (n : Word) (barrier : BarrierType) :
    (system lowest n barrier maxAttempts main).initial.Numbered where
  ledger := Ledger.numbered_initial
  call := by simp [system]

namespace State.Numbered

variable (h : s.Numbered)

include h

theorem note {k : ℕ} {e : Note} (hk : k < s.ledger.opened) : (s.note k e).Numbered where
  ledger := h.ledger.note hk
  call := h.call

theorem goto {c : ℕ} {o : Option Call} (ho : ∀ x ∈ o, x.spawn < s.ledger.opened) :
    (s.goto c o).Numbered where
  ledger := h.ledger
  call := by
    apply Function.forall_update_iff s.call (fun _ o => ∀ x ∈ o, x.spawn < s.ledger.opened) |>.mpr
    exact ⟨ho, fun c' _ => h.call c'⟩

theorem spawn {hd : Handle} {attr : Attribute π} : (s.spawn hd attr).Numbered where
  ledger := h.ledger.openEntry
  call c x hx := (h.call c x hx).trans (Nat.lt_succ_self _)

theorem enter {c : ℕ} {hd : Handle} {k : ℕ} {pc : Pc} (hk : k < s.ledger.opened) :
    (s.enter c hd k pc).Numbered := by
  unfold State.enter
  split
  · exact h.note hk
  · apply h.goto
    intro x hx
    cases hx
    exact hk

end State.Numbered

theorem numbered_move {l : Label π} (h : s.Numbered) (hm : Move s l s') : s'.Numbered := by
  cases hm with
  | spawn => exact h.spawn
  | throws => exact ⟨h.ledger, h.call⟩
  | notify => exact ⟨h.ledger, h.call⟩
  | wait hc hk =>
    have hlt := h.ledger.latest _ _ hk
    exact (h.note hlt).enter hlt
  | test hc hk => exact h.enter (h.ledger.latest _ _ hk)
  | @leave c _ x hx =>
    have hgoto := h.goto (c := c) (o := none) (by simp)
    have hnote := hgoto.note (e := .returned) (h.call c x hx)
    exact ⟨hnote.ledger, hnote.call⟩
  | @access c _ x r hx =>
    have hgoto := h.goto (c := c) (o := r.2.map fun pc => { x with pc := pc }) (by
      intro y hy
      simp only [Option.mem_map] at hy
      obtain ⟨_, _, rfl⟩ := hy
      exact h.call c x hx)
    exact ⟨hgoto.ledger, hgoto.call⟩
  | @unwind c x hx =>
    have hgoto := h.goto (c := c) (o := none) (by simp)
    have hnote := hgoto.note (e := .unwound) (h.call c x hx)
    exact ⟨hnote.ledger, hnote.call⟩

/-! ### What one delivery does to the count -/

theorem last_mem {k : ℕ} (h : s.Last k) : k ∈ s.outstanding := by
  apply Ledger.mem_select.mpr
  have := h.2
  exact ⟨h.1, by omega⟩

theorem outstanding_note {k : ℕ} {e : Note} (he : e = .returned ∨ e = .rethrown) :
    (s.Last k → (s.note k e).outstanding = s.outstanding.erase k) ∧
      (¬s.Last k → (s.note k e).outstanding = s.outstanding) := by
  have hsum : (s.note k e).ledger.noted k .returned + (s.note k e).ledger.noted k .rethrown =
      s.ledger.noted k .returned + s.ledger.noted k .rethrown + 1 := by
    rcases he with rfl | rfl <;> simp [State.note, Ledger.note] <;> omega
  constructor
  · intro hlast
    apply Ledger.select_note_erase
    have := hlast.2
    change ¬(s.note k e).ledger.noted k .returned + (s.note k e).ledger.noted k .rethrown < _
    omega
  · intro hlast
    apply Ledger.select_note_keep
    intro hk
    have hne : s.ledger.noted k .returned + s.ledger.noted k .rethrown + 1 ≠ s.ledger.quota k :=
      fun hq => hlast ⟨hk, hq⟩
    change (s.note k e).ledger.noted k .returned + (s.note k e).ledger.noted k .rethrown < _ ↔ _
    omega

theorem outstanding_note_other {k : ℕ} {e : Note} (h : e ≠ .returned) (h' : e ≠ .rethrown) :
    (s.note k e).outstanding = s.outstanding := by
  apply Ledger.select_note_keep
  intro _
  rw [Ledger.note_noted_other h, Ledger.note_noted_other h']

/-- A delivery, with or without the group being left. -/
theorem accounted_deliver {k : ℕ} {e : Note} (leaves : Bool) (h : s.Accounted)
    (he : e = .returned ∨ e = .rethrown) :
    (if leaves then (fetchAndAdd s.group.rankToken (-1)).1 else s.group.rankToken) =
        BitVec.ofNat 32 (s.note k e).outstanding.card ↔
      (leaves ↔ s.Last k) := by
  have htoken : s.group.rankToken = BitVec.ofNat 32 s.outstanding.card := h
  by_cases hlast : s.Last k
  · have hcard : s.outstanding.card = (s.outstanding.erase k).card + 1 :=
      (Finset.card_erase_add_one (last_mem hlast)).symm
    rw [(outstanding_note he).1 hlast, htoken, hcard, decrement_ofNat]
    cases leaves with
    | true => simp [hlast]
    | false => simpa [hlast] using ofNat_succ_ne _
  · rw [(outstanding_note he).2 hlast, htoken]
    cases leaves with
    | true => simpa [hlast] using decrement_ne _
    | false => simp [hlast]

theorem accounted_enter {c : ℕ} {hd : Handle} {k : ℕ} {pc : Pc} (h : s.Accounted) :
    (s.enter c hd k pc).Accounted ↔ (s.except hd → ¬s.Last k) := by
  unfold State.enter
  split
  · rename_i hexcept
    have := accounted_deliver (k := k) false h (.inr rfl)
    simp only [Bool.false_eq_true, if_false, false_iff] at this
    simp only [hexcept, true_implies]
    exact this
  · rename_i hexcept
    exact iff_of_true h fun hset => absurd hset hexcept

theorem accounted_spawn {hd : Handle} {attr : Attribute π} (h : s.Accounted) (hn : s.Numbered)
    (hq : attr.numWaiters ≠ 0) : (s.spawn hd attr).Accounted := by
  have htoken : s.group.rankToken = BitVec.ofNat 32 s.outstanding.card := h
  have hpos : 0 < attr.numWaiters.toNat := by
    by_contra hzero
    exact hq (BitVec.eq_of_toNat_eq (by simpa using hzero))
  unfold State.Accounted State.outstanding State.spawn
  simp only [spawn_group]
  by_cases hj : attr.joinGroup = true
  · rw [hn.ledger.card_openEntry hj (by simpa using hpos), if_pos hj]
    simp only [Group.joinGroup, htoken]
    exact increment_ofNat _
  · rw [if_neg hj, hn.ledger.select_openEntry, if_neg fun hand => hj hand.1]
    exact htoken

theorem accounted_move {l : Label π} (h : s.Accounted) (hn : s.Numbered) (hm : Move s l s') :
    s'.Accounted ↔ Settles s l := by
  cases hm with
  | spawn hd attr hq => exact iff_of_true (accounted_spawn h hn hq) trivial
  | throws => exact iff_of_true h trivial
  | notify => exact iff_of_true h trivial
  | @wait c hd k pc hc hk =>
    have hbegun : (s.note k .begun).Accounted := by
      unfold State.Accounted
      rw [outstanding_note_other (by simp) (by simp)]
      exact h
    have hlast : (s.note k .begun).Last k ↔ s.Last k := by
      unfold State.Last State.note
      rw [Ledger.note_noted_other (by simp), Ledger.note_noted_other (by simp)]
      rfl
    rw [accounted_enter hbegun, hlast]
    constructor
    · intro hnot _ hexcept k' hk'
      cases Option.mem_unique hk hk'
      exact hnot hexcept
    · intro hsettles hexcept
      exact hsettles hc hexcept k hk
  | @test c hd k pc hc hk =>
    rw [accounted_enter h]
    constructor
    · intro hnot _ hexcept k' hk'
      cases Option.mem_unique hk hk'
      exact hnot hexcept
    · intro hsettles hexcept
      exact hsettles hc hexcept k hk
  | @leave c _ x hx hpc =>
    have hiff : (s.leave c x).Accounted ↔ ((s.task x.handle).attr.joinGroup ↔ s.Last x.spawn) := by
      unfold State.Accounted
      rw [leave_rankToken]
      exact accounted_deliver _ h (.inl rfl)
    rw [hiff]
    constructor
    · intro hiff y hy _
      cases Option.mem_unique hx hy
      exact hiff
    · intro hsettles
      exact hsettles x hx hpc
  | @access c _ x r hx hpc =>
    apply iff_of_true h
    intro y hy
    cases Option.mem_unique hx hy
    exact fun hleaving => absurd hleaving hpc
  | @unwind c x hx =>
    apply iff_of_true _ trivial
    change _ = BitVec.ofNat 32 (s.note x.spawn .unwound).outstanding.card
    rw [outstanding_note_other (by simp) (by simp)]
    exact h

/-- In a run `rank_token` is always right iff its deliveries settle. -/
theorem accounted_iff (lowest : π) (n : Word) (barrier : BarrierType) (maxAttempts : ℕ)
    (main : ℕ → Bool) (as : List (Label π)) :
    (system lowest n barrier maxAttempts main).Along (fun _ _ s => s.Accounted)
        (system lowest n barrier maxAttempts main).initial as ↔
      (system lowest n barrier maxAttempts main).Along (fun s l _ => Settles s l)
        (system lowest n barrier maxAttempts main).initial as := by
  apply System.along_congr (I := fun s => s.Accounted ∧ s.Numbered)
  · intro s l s' hI hs
    have hm := move_of_step hs
    have hiff := accounted_move hI.1 hI.2 hm
    exact ⟨hiff, fun hq => ⟨hiff.mpr hq, numbered_move hI.2 hm⟩⟩
  · exact ⟨rfl, numbered_initial lowest n barrier⟩

/-- A member that two waiters wait for, in a group of two. -/
def sharedRun : List (Label ℕ) :=
  [.spawn 0 { Attribute.new 0 true true with numWaiters := 2 }, .notify 0, .test 0 0] ++
    .replicate 4 (.next 0 false)

/-- The first of the two deliveries has taken the task out of the group. -/
theorem not_accounted_sharedRun :
    ¬∀ (n : Word) (barrier : BarrierType) (maxAttempts : ℕ) (main : ℕ → Bool) (s : State ℕ),
      (system 0 n barrier maxAttempts main).Reachable (fun _ _ => True) s → s.Accounted := by
  intro h
  have hr : (system 0 2 .spin 4 fun _ => false).Reachable (fun _ _ => True)
      ((system 0 2 .spin 4 fun _ => false).final sharedRun) := System.reachable_final (by decide)
  have htoken : ((system 0 2 .spin 4 fun _ => false).final sharedRun).group.rankToken ≠
      BitVec.ofNat 32 ((system 0 2 .spin 4 fun _ => false).final sharedRun).outstanding.card := by
    decide
  exact htoken (h 2 .spin 4 _ _ hr)

end PFunc.GroupMembers
