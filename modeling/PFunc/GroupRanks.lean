import PFunc.GroupMembers

/-!
# The ranks of the members of a group

The rank of a task is the number of members that the group has when the task joins.
Members leave in any order, and a task whose `wait` exits by an exception stays a member.
-/

namespace PFunc.GroupMembers

open LabelledRuns Atomics

variable {π : Type} {maxAttempts : ℕ} {main : ℕ → Bool} {s s' : State π}

/-- The last spawn of the task has joined, and no `wait` on it has ended. -/
def State.Active (s : State π) (h : Handle) : Prop := ∃ k ∈ s.ledger.latest h, k ∈ s.active

structure State.UniqueRanks (s : State π) : Prop where
  lt : ∀ h, s.Active h → (s.task h).grank.toNat < s.group.groupSize
  ne : ∀ h h', s.Active h → s.Active h' → h ≠ h' → (s.task h).grank ≠ (s.task h').grank

/-- Every task is grouped and waited for once, and at most as many are active as the group
has room for. -/
def Disciplined (s : State π) : Label π → Prop
  | .spawn h attr => attr.joinGroup ∧ (∀ k ∈ s.ledger.latest h, k ∉ s.active) ∧
      s.active.card < s.group.groupSize
  | .wait _ h => ∀ k ∈ s.ledger.latest h, s.ledger.noted k .begun = 0
  | .test _ _ => False
  | _ => True

instance (s : State π) (l : Label π) : Decidable (Disciplined s l) := by
  unfold Disciplined
  cases l <;> infer_instance

/-- A group has room for the task, and no active task was spawned when the group had as
many members. -/
def Vacant (s : State π) : Label π → Prop
  | .spawn _ _ => s.members.card < s.group.groupSize ∧ ∀ k ∈ s.active, s.seat k ≠ s.members.card
  | _ => True

structure State.Seated (s : State π) : Prop where
  numbered : s.ledger.Numbered
  token : s.group.rankToken = BitVec.ofNat 32 s.members.card
  members_le : s.members.card ≤ s.group.groupSize
  size : s.group.groupSize < 2 ^ 32
  latest_mem : ∀ h, ∀ k ∈ s.ledger.latest h, k ∈ s.ledger.members ∧ (s.task h).attr.joinGroup
  latest_inj : ∀ h h', ∀ k ∈ s.ledger.latest h, k ∈ s.ledger.latest h' → h = h'
  current : ∀ k ∈ s.active, ∃ h, k ∈ s.ledger.latest h
  begun : ∀ k ∈ s.ledger.members, s.ledger.noted k .begun = 0 → k ∈ s.active
  rank : ∀ h, ∀ k ∈ s.ledger.latest h, k ∈ s.active →
    (s.task h).grank = BitVec.ofNat 32 (s.seat k) ∧ s.seat k < s.group.groupSize
  call : ∀ c, ∀ x ∈ s.call c, x.spawn ∈ s.ledger.latest x.handle ∧ x.spawn ∈ s.active ∧
    s.ledger.noted x.spawn .begun ≠ 0
  alone : ∀ c c', ∀ x ∈ s.call c, ∀ x' ∈ s.call c', x.spawn = x'.spawn → c = c'

theorem State.UniqueRanks.mono (h : s.UniqueRanks) (hlatest : s'.ledger.latest = s.ledger.latest)
    (hactive : s'.active ⊆ s.active) (htask : ∀ hd, (s'.task hd).grank = (s.task hd).grank)
    (hsize : s'.group.groupSize = s.group.groupSize) : s'.UniqueRanks := by
  have hmono : ∀ hd, s'.Active hd → s.Active hd := by
    rintro hd ⟨k, hk, hmem⟩
    rw [hlatest] at hk
    exact ⟨k, hk, hactive hmem⟩
  constructor
  · intro hd ha
    rw [htask, hsize]
    exact h.lt hd (hmono hd ha)
  · intro hd hd' ha ha' hne
    rw [htask, htask]
    exact h.ne hd hd' (hmono hd ha) (hmono hd' ha') hne

theorem active_note {k : ℕ} {e : Note} (he : e ≠ .begun) :
    (s.note k e).active = s.active.erase k := by
  apply Ledger.select_note_erase
  cases e with
  | begun => exact absurd rfl he
  | returned => simp [Ledger.note_noted_self]
  | rethrown => simp [Ledger.note_noted_self]
  | unwound => simp [Ledger.note_noted_self]

theorem active_note_begun {k : ℕ} : (s.note k .begun).active = s.active := by
  apply Ledger.select_note_keep
  intro _
  rw [Ledger.note_noted_other (by simp), Ledger.note_noted_other (by simp),
    Ledger.note_noted_other (by simp)]

theorem members_note_returned {k : ℕ} : (s.note k .returned).members = s.members.erase k := by
  apply Ledger.select_note_erase
  simp [Ledger.note_noted_self]

theorem members_note {k : ℕ} {e : Note} (he : e ≠ .returned) :
    (s.note k e).members = s.members := by
  apply Ledger.select_note_keep
  intro _
  rw [Ledger.note_noted_other he]

theorem active_subset_members : s.active ⊆ s.members := by
  intro k hk
  have hk := Ledger.mem_select.mp hk
  apply Ledger.mem_select.mpr
  exact ⟨hk.1, by omega⟩

theorem Task.spawn_grank {x : Task π} {attr : Attribute π} {g : Group} (hj : attr.joinGroup) :
    (x.spawn attr 0 g).1.grank = g.rankToken := by
  simp [Task.spawn, Task.setGroup, hj, Group.joinGroup, fetchAndAdd]

/-! ### What a spawn changes -/

section Spawn

variable {hd hd' : Handle} {attr : Attribute π} {k : ℕ}

theorem spawn_task_of_ne (hne : hd' ≠ hd) : (s.spawn hd attr).task hd' = s.task hd' :=
  Function.update_of_ne hne _ _

theorem spawn_task_self :
    (s.spawn hd attr).task hd = ((s.task hd).spawn attr 0 s.group).1 :=
  Function.update_self ..

theorem spawn_latest_of_ne (hne : hd' ≠ hd) :
    (s.spawn hd attr).ledger.latest hd' = s.ledger.latest hd' :=
  Function.update_of_ne hne _ _

theorem mem_spawn_latest_self : s.ledger.opened ∈ (s.spawn hd attr).ledger.latest hd :=
  Function.update_self ..

theorem spawn_latest_cases (hk : k ∈ (s.spawn hd attr).ledger.latest hd') :
    hd' = hd ∧ k = s.ledger.opened ∨ hd' ≠ hd ∧ k ∈ s.ledger.latest hd' := by
  by_cases hne : hd' = hd
  · subst hne
    exact .inl ⟨rfl, Option.mem_unique hk mem_spawn_latest_self⟩
  · rw [spawn_latest_of_ne hne] at hk
    exact .inr ⟨hne, hk⟩

theorem spawn_active (hn : s.ledger.Numbered) (hj : attr.joinGroup) :
    (s.spawn hd attr).active = insert s.ledger.opened s.active :=
  hn.select_openEntry.trans (if_pos ⟨hj, rfl⟩)

end Spawn

namespace State.Seated

variable (h : s.Seated)

include h

/-- A step that changes neither the group nor the ledger, but perhaps events and calls. -/
theorem congr (hledger : s'.ledger = s.ledger) (hgroup : s'.group = s.group)
    (hseat : s'.seat = s.seat) (htask : ∀ hd, (s'.task hd).toCopy = (s.task hd).toCopy)
    (hcall : ∀ c, ∀ x' ∈ s'.call c, ∃ x ∈ s.call c, x.spawn = x'.spawn ∧ x.handle = x'.handle) :
    s'.Seated := by
  have hmembers : s'.members = s.members := by simp only [members, hledger]
  have hactive : s'.active = s.active := by simp only [active, hledger]
  have hattr : ∀ hd, (s'.task hd).attr = (s.task hd).attr := fun hd => congrArg _ (htask hd)
  have hrank : ∀ hd, (s'.task hd).grank = (s.task hd).grank := fun hd => congrArg _ (htask hd)
  constructor
  · rw [hledger]
    exact h.numbered
  · rw [hgroup, hmembers]
    exact h.token
  · rw [hgroup, hmembers]
    exact h.members_le
  · rw [hgroup]
    exact h.size
  · intro hd
    rw [hledger, hattr]
    exact h.latest_mem hd
  · rw [hledger]
    exact h.latest_inj
  · rw [hledger, hactive]
    exact h.current
  · rw [hledger, hactive]
    exact h.begun
  · intro hd
    rw [hledger, hactive, hgroup, hseat, hrank]
    exact h.rank hd
  · intro c x' hx'
    obtain ⟨x, hx, hspawn, hhandle⟩ := hcall c x' hx'
    rw [hledger, hactive, ← hspawn, ← hhandle]
    exact h.call c x hx
  · intro c c' x hx y hy hxy
    obtain ⟨x', hx', hspawn, _⟩ := hcall c x hx
    obtain ⟨y', hy', hspawn', _⟩ := hcall c' y hy
    exact h.alone c c' x' hx' y' hy' (by rw [hspawn, hspawn', hxy])

/-- The call `c` has ended, so no call is left on its spawn. -/
theorem free {c : ℕ} {x : Call} (hx : x ∈ s.call c) :
    ∀ c', ∀ y ∈ (s.goto c none).call c', y.spawn ≠ x.spawn := by
  intro c' y hy hxy
  by_cases hc : c' = c
  · subst hc
    simp [State.goto] at hy
  · have hy : y ∈ s.call c' := by simpa [State.goto, hc] using hy
    exact hc (h.alone c' c y hy x hx hxy)

theorem note_begun {k : ℕ} (hk : k < s.ledger.opened) : (s.note k .begun).Seated := by
  have hmono : ∀ k', (s.note k .begun).ledger.noted k' .begun = 0 →
      s.ledger.noted k' .begun = 0 := by
    intro k' hzero
    simp only [State.note, Ledger.note] at hzero
    omega
  have hmembers : (s.note k .begun).members = s.members := members_note (by simp)
  refine { h with numbered := ?_, token := ?_, members_le := ?_, current := ?_, begun := ?_,
                  rank := ?_, call := ?_ }
  · exact h.numbered.note hk
  · rw [hmembers]
    exact h.token
  · rw [hmembers]
    exact h.members_le
  · rw [active_note_begun]
    exact h.current
  · intro k' hk' hzero
    rw [active_note_begun]
    exact h.begun k' hk' (hmono k' hzero)
  · rw [active_note_begun]
    exact h.rank
  · intro c x hx
    obtain ⟨hlatest, hactive, hbegun⟩ := h.call c x hx
    rw [active_note_begun]
    exact ⟨hlatest, hactive, fun hzero => hbegun (hmono x.spawn hzero)⟩

/-- An end of a call is noted on a spawn without other calls. -/
theorem note_end {k : ℕ} {e : Note} {g : Group} (he : e ≠ .begun) (hk : k < s.ledger.opened)
    (hbegun : s.ledger.noted k .begun ≠ 0)
    (hfree : ∀ c, ∀ x ∈ s.call c, x.spawn ≠ k) (hsize : g.groupSize = s.group.groupSize)
    (htoken : g.rankToken = BitVec.ofNat 32 (s.note k e).members.card) :
    State.Seated { s.note k e with group := g } := by
  have hactive : State.active { s.note k e with group := g } = s.active.erase k :=
    active_note he
  have hmembers : (s.note k e).members ⊆ s.members := by
    cases e with
    | returned =>
      rw [members_note_returned]
      exact Finset.erase_subset _ _
    | begun => exact absurd rfl he
    | rethrown => rw [members_note (by simp)]
    | unwound => rw [members_note (by simp)]
  refine { numbered := h.numbered.note hk, token := htoken, members_le := ?_, size := ?_,
           latest_mem := h.latest_mem, latest_inj := h.latest_inj, current := ?_, begun := ?_,
           rank := ?_, call := ?_, alone := h.alone }
  · change _ ≤ g.groupSize
    rw [hsize]
    exact (Finset.card_le_card hmembers).trans h.members_le
  · change g.groupSize < _
    rw [hsize]
    exact h.size
  · intro k' hk'
    rw [hactive] at hk'
    exact h.current k' (Finset.mem_of_mem_erase hk')
  · intro k' hk' hzero
    change s.ledger.noted k' .begun + _ = 0 at hzero
    rw [hactive]
    apply Finset.mem_erase.mpr
    constructor
    · rintro rfl
      omega
    · exact h.begun k' hk' (by omega)
  · intro hd k' hk' hmem
    rw [hactive] at hmem
    change _ ∧ _ < g.groupSize
    rw [hsize]
    exact h.rank hd k' hk' (Finset.mem_of_mem_erase hmem)
  · intro c x hx
    obtain ⟨hlatest, hmem, hnoted⟩ := h.call c x hx
    rw [hactive]
    refine ⟨hlatest, Finset.mem_erase.mpr ⟨hfree c x hx, hmem⟩, ?_⟩
    change s.ledger.noted x.spawn .begun + _ ≠ 0
    omega

theorem goto_some {c : ℕ} {x : Call} (hlatest : x.spawn ∈ s.ledger.latest x.handle)
    (hactive : x.spawn ∈ s.active) (hbegun : s.ledger.noted x.spawn .begun ≠ 0)
    (hfree : ∀ c', ∀ y ∈ s.call c', y.spawn ≠ x.spawn) : (s.goto c (some x)).Seated := by
  have hcases : ∀ c', ∀ y ∈ (s.goto c (some x)).call c', c' = c ∧ y = x ∨ y ∈ s.call c' := by
    intro c' y hy
    by_cases hc : c' = c
    · subst hc
      have hy : some x = some y := by simpa [State.goto] using hy
      cases hy
      exact .inl ⟨rfl, rfl⟩
    · exact .inr (by simpa [State.goto, hc] using hy)
  refine { h with call := ?_, alone := ?_ }
  · intro c' y hy
    rcases hcases c' y hy with ⟨_, rfl⟩ | hy
    · exact ⟨hlatest, hactive, hbegun⟩
    · exact h.call c' y hy
  · intro c' c'' y hy z hz hyz
    rcases hcases c' y hy with ⟨hc, hyx⟩ | hold <;> rcases hcases c'' z hz with ⟨hc', hzx⟩ | hold'
    · rw [hc, hc']
    · exact absurd (hyx ▸ hyz).symm (hfree c'' z hold')
    · exact absurd (hzx ▸ hyz) (hfree c' y hold)
    · exact h.alone c' c'' y hold z hold' hyz

theorem goto_none {c : ℕ} : (s.goto c none).Seated := by
  have hcall : ∀ c', ∀ x ∈ (s.goto c none).call c', x ∈ s.call c' := by
    intro c' x hx
    by_cases hc : c' = c
    · subst hc
      simp [State.goto] at hx
    · simpa [State.goto, hc] using hx
  exact h.congr rfl rfl rfl (fun _ => rfl) fun c' x hx => ⟨x, hcall c' x hx, rfl, rfl⟩

theorem enter {c : ℕ} {hd : Handle} {k : ℕ} {pc : Pc} (hk : k ∈ s.ledger.latest hd)
    (hactive : k ∈ s.active) (hbegun : s.ledger.noted k .begun ≠ 0)
    (hfree : ∀ c', ∀ x ∈ s.call c', x.spawn ≠ k) : (s.enter c hd k pc).Seated := by
  unfold State.enter
  split
  · apply h.note_end (by simp) (h.numbered.latest hd k hk) hbegun hfree rfl
    rw [members_note (by simp)]
    exact h.token
  · exact h.goto_some hk hactive hbegun hfree

/-- A spawn by which the group does not outgrow its size. -/
theorem spawn {hd : Handle} {attr : Attribute π} (hj : attr.joinGroup)
    (hprev : ∀ k ∈ s.ledger.latest hd, k ∉ s.active)
    (hroom : s.members.card < s.group.groupSize) : (s.spawn hd attr).Seated := by
  have hopened : ∀ k ∈ s.ledger.members, k ≠ s.ledger.opened := fun k hk =>
    (h.numbered.members k hk).ne
  have hactive : (s.spawn hd attr).active = insert s.ledger.opened s.active :=
    spawn_active h.numbered hj
  have hcard : (s.spawn hd attr).members.card = s.members.card + 1 :=
    h.numbered.card_openEntry hj rfl
  have hmembers : (s.spawn hd attr).ledger.members = insert s.ledger.opened s.ledger.members :=
    if_pos hj
  have hother : ∀ k ∈ s.active, ∀ hd', k ∈ s.ledger.latest hd' → hd' ≠ hd := by
    rintro k hk _ hk' rfl
    exact hprev k hk' hk
  have hsize : (s.spawn hd attr).group.groupSize = s.group.groupSize := spawn_groupSize
  constructor
  · exact h.numbered.openEntry
  · rw [hcard]
    have htoken : (s.spawn hd attr).group.rankToken = (fetchAndAdd s.group.rankToken 1).1 := by
      have hgroup : (s.spawn hd attr).group = s.group.joinGroup.1 := by
        exact spawn_group.trans (if_pos hj)
      rw [hgroup]
      simp only [Group.joinGroup]
    rw [htoken, h.token]
    exact increment_ofNat _
  · rw [hcard, hsize]
    exact hroom
  · rw [hsize]
    exact h.size
  · intro hd' k hk
    rw [hmembers]
    rcases spawn_latest_cases hk with ⟨rfl, rfl⟩ | ⟨hne, hk⟩
    · rw [spawn_task_self, Task.spawn_attr]
      exact ⟨Finset.mem_insert_self _ _, hj⟩
    · obtain ⟨hmem, hgrouped⟩ := h.latest_mem hd' k hk
      rw [spawn_task_of_ne hne]
      exact ⟨Finset.mem_insert_of_mem hmem, hgrouped⟩
  · intro hd₁ hd₂ k hk₁ hk₂
    rcases spawn_latest_cases hk₁ with ⟨rfl, hk⟩ | ⟨_, hold₁⟩ <;>
      rcases spawn_latest_cases hk₂ with ⟨rfl, hk'⟩ | ⟨_, hold₂⟩
    · rfl
    · exact absurd hk (hopened k (h.latest_mem hd₂ k hold₂).1)
    · exact absurd hk' (hopened k (h.latest_mem hd₁ k hold₁).1)
    · exact h.latest_inj hd₁ hd₂ k hold₁ hold₂
  · intro k hk
    rw [hactive] at hk
    rcases Finset.mem_insert.mp hk with rfl | hk
    · exact ⟨hd, mem_spawn_latest_self⟩
    · obtain ⟨hd', hk'⟩ := h.current k hk
      exact ⟨hd', by rwa [spawn_latest_of_ne (hother k hk hd' hk')]⟩
  · intro k hk hzero
    rw [hmembers] at hk
    rw [hactive]
    rcases Finset.mem_insert.mp hk with rfl | hk
    · exact Finset.mem_insert_self _ _
    · exact Finset.mem_insert_of_mem (h.begun k hk hzero)
  · intro hd' k hk hmem
    rw [hsize]
    rcases spawn_latest_cases hk with ⟨rfl, rfl⟩ | ⟨hne, hk⟩
    · have hseat : (s.spawn hd' attr).seat s.ledger.opened = s.members.card :=
        Function.update_self ..
      rw [spawn_task_self, Task.spawn_grank hj, hseat]
      exact ⟨h.token, hroom⟩
    · have hkne := hopened k (h.latest_mem hd' k hk).1
      have hseat : (s.spawn hd attr).seat k = s.seat k := Function.update_of_ne hkne _ _
      rw [hactive] at hmem
      rw [spawn_task_of_ne hne, hseat]
      exact h.rank hd' k hk (Finset.mem_of_mem_insert_of_ne hmem hkne)
  · intro c x hx
    obtain ⟨hk, hmem, hbegun⟩ := h.call c x hx
    rw [hactive, spawn_latest_of_ne (hother x.spawn hmem x.handle hk)]
    exact ⟨hk, Finset.mem_insert_of_mem hmem, hbegun⟩
  · exact h.alone

end State.Seated

theorem task_update_toCopy {x : Task π} {hd : Handle} (hx : x.toCopy = (s.task hd).toCopy)
    (hd' : Handle) : (Function.update s.task hd x hd').toCopy = (s.task hd').toCopy := by
  by_cases hne : hd' = hd
  · subst hne
    rw [Function.update_self, hx]
  · rw [Function.update_of_ne hne]

theorem seated_access {c : ℕ} {x : Call} {r : Task π × Option Pc} (h : s.Seated)
    (hx : x ∈ s.call c) (hr : r.1.toCopy = (s.task x.handle).toCopy) :
    (s.access c x r).Seated := by
  have htask : ∀ hd, ((s.access c x r).task hd).toCopy = (s.task hd).toCopy :=
    task_update_toCopy hr
  have hcall : ∀ c', ∀ y ∈ (s.access c x r).call c',
      ∃ z ∈ s.call c', z.spawn = y.spawn ∧ z.handle = y.handle := by
    intro c' y hy
    simp only [State.access, State.goto] at hy
    by_cases hc : c' = c
    · subst hc
      rw [Function.update_self, Option.mem_map] at hy
      obtain ⟨pc, _, rfl⟩ := hy
      exact ⟨x, hx, rfl, rfl⟩
    · rw [Function.update_of_ne hc] at hy
      exact ⟨y, hy, rfl, rfl⟩
  exact h.congr rfl rfl rfl htask hcall

theorem seated_leave {c : ℕ} {x : Call} (h : s.Seated) (hx : x ∈ s.call c) :
    (s.leave c x).Seated := by
  obtain ⟨hlatest, hactive, hbegun⟩ := h.call c x hx
  have hgrouped := (h.latest_mem x.handle x.spawn hlatest).2
  have hmem : x.spawn ∈ s.members := active_subset_members hactive
  have hcard : s.members.card = ((s.goto c none).note x.spawn .returned).members.card + 1 := by
    rw [members_note_returned]
    exact (Finset.card_erase_add_one hmem).symm
  have htoken : s.group.leaveGroup.rankToken =
      BitVec.ofNat 32 ((s.goto c none).note x.spawn .returned).members.card := by
    simp only [Group.leaveGroup]
    rw [h.token, hcard]
    exact decrement_ofNat _
  have hleave : s.leave c x =
      { (s.goto c none).note x.spawn .returned with group := s.group.leaveGroup } := by
    simp only [State.leave, if_pos hgrouped]
  rw [hleave]
  have hlt := h.numbered.latest _ _ hlatest
  exact h.goto_none.note_end (by simp) hlt hbegun (h.free hx) s.group.leaveGroup_groupSize htoken

theorem seated_unwind {c : ℕ} {x : Call} (h : s.Seated) (hx : x ∈ s.call c) :
    (s.unwind c x).Seated := by
  obtain ⟨hlatest, hactive, hbegun⟩ := h.call c x hx
  have hend : State.Seated { (s.goto c none).note x.spawn .unwound with group := s.group } := by
    apply h.goto_none.note_end (by simp) (h.numbered.latest _ _ hlatest) hbegun (h.free hx) rfl
    rw [members_note (by simp)]
    exact h.token
  exact hend.congr rfl rfl rfl (fun _ => rfl) fun c x hx => ⟨x, hx, rfl, rfl⟩

theorem seated_wait {c : ℕ} {hd : Handle} {k : ℕ} {pc : Pc} (h : s.Seated)
    (hk : k ∈ s.ledger.latest hd) (hzero : s.ledger.noted k .begun = 0) :
    ((s.note k .begun).enter c hd k pc).Seated := by
  apply (h.note_begun (h.numbered.latest hd k hk)).enter hk
  · rw [active_note_begun]
    exact h.begun k (h.latest_mem hd k hk).1 hzero
  · simp [State.note]
  · rintro c' x hx rfl
    exact (h.call c' x hx).2.2 hzero

theorem notify_toCopy {hd : Handle} (hd' : Handle) :
    ((s.notify hd).task hd').toCopy = (s.task hd').toCopy := by
  simp only [State.notify]
  split
  · rfl
  · exact task_update_toCopy (Task.notify_toCopy _) hd'

theorem seated_move {l : Label π} (h : s.Seated) (hd : Disciplined s l) (hv : Vacant s l)
    (hm : Move s l s') : s'.Seated := by
  cases hm with
  | spawn => exact h.spawn hd.1 hd.2.1 hv.1
  | throws => exact h.congr rfl rfl rfl (fun _ => rfl) fun c x hx => ⟨x, hx, rfl, rfl⟩
  | notify => exact h.congr rfl rfl rfl notify_toCopy fun c x hx => ⟨x, hx, rfl, rfl⟩
  | wait _ hk => exact seated_wait h hk (hd _ hk)
  | test => exact hd.elim
  | leave hx => exact seated_leave h hx
  | access hx _ hr => exact seated_access h hx hr
  | unwind hx => exact seated_unwind h hx

/-! ### Ranks and seats -/

theorem State.Seated.grank_toNat {hd : Handle} {k : ℕ} (h : s.Seated)
    (hk : k ∈ s.ledger.latest hd) (hactive : k ∈ s.active) :
    (s.task hd).grank.toNat = s.seat k ∧ s.seat k < s.group.groupSize := by
  obtain ⟨hrank, hlt⟩ := h.rank hd k hk hactive
  have := h.size
  rw [hrank, BitVec.toNat_ofNat, Nat.mod_eq_of_lt (by omega)]
  exact ⟨rfl, hlt⟩

theorem State.Seated.uniqueRanks_spawn {hd : Handle} {attr : Attribute π} (h : s.Seated)
    (hu : s.UniqueRanks) (hd' : Disciplined s (.spawn hd attr)) :
    (s.spawn hd attr).UniqueRanks ↔ Vacant s (.spawn hd attr) := by
  obtain ⟨hj, hprev, _⟩ := hd'
  have hsize : (s.spawn hd attr).group.groupSize = s.group.groupSize := spawn_groupSize
  have hactive : (s.spawn hd attr).active = insert s.ledger.opened s.active :=
    spawn_active h.numbered hj
  have hself : (s.spawn hd attr).Active hd :=
    ⟨_, mem_spawn_latest_self, by rw [hactive]; exact Finset.mem_insert_self _ _⟩
  have hrank : ((s.spawn hd attr).task hd).grank.toNat = s.members.card := by
    have := h.members_le
    have := h.size
    rw [spawn_task_self, Task.spawn_grank hj, h.token, BitVec.toNat_ofNat,
      Nat.mod_eq_of_lt (by omega)]
  have hother : ∀ hd₁, ∀ k ∈ s.ledger.latest hd₁, k ∈ s.active →
      hd₁ ≠ hd ∧ (s.spawn hd attr).Active hd₁ := by
    intro hd₁ k hk hmem
    have hne : hd₁ ≠ hd := by
      rintro rfl
      exact hprev k hk hmem
    refine ⟨hne, k, by rwa [spawn_latest_of_ne hne], ?_⟩
    rw [hactive]
    exact Finset.mem_insert_of_mem hmem
  have hold : ∀ hd₁, (s.spawn hd attr).Active hd₁ → hd₁ ≠ hd → s.Active hd₁ := by
    rintro hd₁ ⟨k, hk, hmem⟩ hne
    rcases spawn_latest_cases hk with ⟨rfl, _⟩ | ⟨_, hk⟩
    · exact absurd rfl hne
    · have hlt := h.numbered.latest hd₁ k hk
      rw [hactive] at hmem
      exact ⟨k, hk, Finset.mem_of_mem_insert_of_ne hmem hlt.ne⟩
  constructor
  · intro hu'
    have hlt := hu'.lt hd hself
    rw [hrank, hsize] at hlt
    refine ⟨hlt, ?_⟩
    intro k hk hseat
    obtain ⟨hd₁, hk₁⟩ := h.current k hk
    obtain ⟨hne, ha⟩ := hother hd₁ k hk₁ hk
    apply hu'.ne hd₁ hd ha hself hne
    apply BitVec.eq_of_toNat_eq
    rw [hrank, spawn_task_of_ne hne, (h.grank_toNat hk₁ hk).1, hseat]
  · rintro ⟨hroom, hfree⟩
    have hnew : ∀ hd₁, s.Active hd₁ → hd₁ ≠ hd →
        ((s.spawn hd attr).task hd₁).grank ≠ ((s.spawn hd attr).task hd).grank := by
      rintro hd₁ ⟨k, hk, hmem⟩ hne heq
      have := congrArg BitVec.toNat heq
      rw [hrank, spawn_task_of_ne hne, (h.grank_toNat hk hmem).1] at this
      exact hfree k hmem this
    constructor
    · intro hd₁ ha
      rw [hsize]
      by_cases hne : hd₁ = hd
      · rw [hne, hrank]
        exact hroom
      · rw [spawn_task_of_ne hne]
        exact hu.lt hd₁ (hold hd₁ ha hne)
    · intro hd₁ hd₂ ha₁ ha₂ hne
      by_cases hne₁ : hd₁ = hd
      · subst hne₁
        exact (hnew hd₂ (hold hd₂ ha₂ hne.symm) hne.symm).symm
      · by_cases hne₂ : hd₂ = hd
        · subst hne₂
          exact hnew hd₁ (hold hd₁ ha₁ hne) hne
        · rw [spawn_task_of_ne hne₁, spawn_task_of_ne hne₂]
          exact hu.ne hd₁ hd₂ (hold hd₁ ha₁ hne₁) (hold hd₂ ha₂ hne₂) hne

theorem enter_active_subset {c : ℕ} {hd : Handle} {k : ℕ} {pc : Pc} :
    (s.enter c hd k pc).active ⊆ s.active := by
  unfold State.enter
  split
  · rw [active_note (by simp)]
    exact Finset.erase_subset _ _
  · exact Finset.Subset.refl _

theorem uniqueRanks_enter {c : ℕ} {hd : Handle} {k : ℕ} {pc : Pc} (hu : s.UniqueRanks) :
    (s.enter c hd k pc).UniqueRanks := by
  apply hu.mono _ enter_active_subset
  · intro hd
    unfold State.enter
    split <;> rfl
  · unfold State.enter
    split <;> rfl
  · unfold State.enter
    split <;> rfl

/-- Only a spawn can make two ranks equal, or a rank too large. -/
theorem uniqueRanks_move {l : Label π} (h : s.Seated) (hu : s.UniqueRanks) (hd : Disciplined s l)
    (hm : Move s l s') : s'.UniqueRanks ↔ Vacant s l := by
  cases hm with
  | spawn => exact h.uniqueRanks_spawn hu hd
  | throws =>
    apply iff_of_true _ trivial
    exact hu.mono rfl (Finset.Subset.refl _) (fun _ => rfl) rfl
  | notify hd =>
    apply iff_of_true _ trivial
    exact hu.mono rfl (Finset.Subset.refl _) (fun hd' => congrArg _ (notify_toCopy hd')) rfl
  | @wait c hd k pc =>
    apply iff_of_true _ trivial
    apply uniqueRanks_enter
    exact hu.mono rfl active_note_begun.subset (fun _ => rfl) rfl
  | test => exact hd.elim
  | @leave c _ x hx =>
    apply iff_of_true _ trivial
    have hactive : (s.leave c x).active ⊆ s.active := by
      change (s.note x.spawn .returned).active ⊆ s.active
      rw [active_note (by simp)]
      exact Finset.erase_subset _ _
    exact hu.mono rfl hactive (fun _ => rfl) leave_groupSize
  | @access c _ x r hx _ hr =>
    apply iff_of_true _ trivial
    exact hu.mono rfl (Finset.Subset.refl _)
      (fun hd => congrArg _ (task_update_toCopy hr hd)) rfl
  | @unwind c x hx =>
    apply iff_of_true _ trivial
    have hactive : (s.unwind c x).active ⊆ s.active := by
      change (s.note x.spawn .unwound).active ⊆ s.active
      rw [active_note (by simp)]
      exact Finset.erase_subset _ _
    exact hu.mono rfl hactive (fun _ => rfl) rfl

theorem seated_initial (lowest : π) (n : Word) (barrier : BarrierType) :
    (system lowest n barrier maxAttempts main).initial.Seated := by
  constructor
  case size => exact n.isLt
  case numbered => exact Ledger.numbered_initial
  all_goals simp [system, State.members, State.active, Ledger.select, Ledger.initial, Group.new]

/-- A disciplined run keeps the ranks of the active tasks apart and below `n` iff no task is
spawned when the group has as many members as it had when a task still active was spawned. -/
theorem uniqueRanks_iff (lowest : π) (n : Word) (barrier : BarrierType) (maxAttempts : ℕ)
    (main : ℕ → Bool) (as : List (Label π)) :
    (system lowest n barrier maxAttempts main).Along
        (fun s l s' => Disciplined s l ∧ s'.UniqueRanks)
        (system lowest n barrier maxAttempts main).initial as ↔
      (system lowest n barrier maxAttempts main).Along (fun s l _ => Disciplined s l ∧ Vacant s l)
        (system lowest n barrier maxAttempts main).initial as := by
  apply System.along_congr (I := fun s => s.Seated ∧ s.UniqueRanks)
  · intro s l s' hI hs
    have hm := move_of_step hs
    constructor
    · exact and_congr_right fun hd => uniqueRanks_move hI.1 hI.2 hd hm
    · rintro ⟨hd, hv⟩
      exact ⟨seated_move hI.1 hd hv hm, (uniqueRanks_move hI.1 hI.2 hd hm).mpr hv⟩
  · refine ⟨seated_initial lowest n barrier, ?_, ?_⟩ <;>
      simp [system, State.Active, Ledger.initial]

/-- While no `wait` exits by an exception, the members are the active tasks. -/
theorem members_eq_active (h : ∀ k, s.ledger.noted k .rethrown = 0 ∧ s.ledger.noted k .unwound = 0) :
    s.members = s.active := by
  ext k
  rw [State.members, State.active, Ledger.mem_select, Ledger.mem_select]
  have := h k
  apply and_congr_right
  intro _
  constructor <;> intro _ <;> omega

/-- In a group of two, a task takes the place of the first while the second is active. -/
def replaceRun : List (Label ℕ) :=
  [.spawn 0 (.new 0 true true), .spawn 1 (.new 0 true true), .notify 0, .wait 0 0] ++
    .replicate 8 (.next 0 false) ++ [.spawn 2 (.new 0 true true)]

theorem same_rank_replaceRun :
    ¬∀ (n : Word) (barrier : BarrierType) (maxAttempts : ℕ) (main : ℕ → Bool) (s : State ℕ),
      (system 0 n barrier maxAttempts main).Reachable Disciplined s → s.UniqueRanks := by
  intro h
  have hr : (system 0 2 .spin 4 fun _ => false).Reachable Disciplined
      ((system 0 2 .spin 4 fun _ => false).final replaceRun) := System.reachable_final (by decide)
  apply (h 2 .spin 4 _ _ hr).ne 1 2 ⟨1, by decide⟩ ⟨2, by decide⟩ (by decide)
  decide

end PFunc.GroupMembers
