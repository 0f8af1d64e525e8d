import PFunc.Unwinding

/-!
# A task that throws is never complete

`notify` begins with the check that throws the stored exception again, so a task whose
functor has thrown keeps an incomplete event, and the worker leaves the work loop or the
suspended call by the exception.
-/

namespace PFunc.Exceptions

open LabelledRuns Atomics Event

variable {numThreads : ℕ} {s s' : State} {l : Label}

/-- The tasks a thread runs, and the one it has still to notify. -/
def Thread.holds (th : Thread) : List Handle :=
  th.ctl.token.toList ++ th.frames.map (·.task)

/-- A call of `wait` on the task has still to return. -/
def Thread.Awaits (th : Thread) (h : Handle) : Prop :=
  th.ctl.point = some (.wait h) ∨ ∃ f ∈ th.frames, f.point = .wait h

instance (th : Thread) (h : Handle) : Decidable (th.Awaits h) := by
  unfold Thread.Awaits
  infer_instance

/-- A handle is respawned only when its last spawn has ended and no call waits on it. -/
def Respawn (numThreads : ℕ) (s : State) (l : Label) : Prop :=
  match l.act with
  | .spawn h _ => s.queued h = false ∧
      ∀ t ≤ numThreads, h ∉ (s.thread t).holds ∧ ¬(s.thread t).Awaits h
  | _ => True

instance (s : State) (l : Label) : Decidable (Respawn numThreads s l) := by
  unfold Respawn
  split <;> infer_instance

/-- Where the tasks of a state are, what has become of them, and what they have stored. -/
structure State.Tracked (numThreads : ℕ) (s : State) : Prop where
  nodup : ∀ t ≤ numThreads, (s.thread t).holds.Nodup
  unique : ∀ t ≤ numThreads, ∀ t' ≤ numThreads, ∀ h, h ∈ (s.thread t).holds →
    h ∈ (s.thread t').holds → t = t'
  queued : ∀ t ≤ numThreads, ∀ h, s.queued h → h ∉ (s.thread t).holds
  fresh : ∀ h, s.queued h → s.fate h = .pending
  running : ∀ t ≤ numThreads, ∀ f ∈ (s.thread t).frames, s.fate f.task = .pending
  storing : ∀ t ≤ numThreads, ∀ f x phase, (s.thread t).ctl = .storing f x phase →
    s.fate f.task = .threw x ∧ (phase = .trace → s.except (.task f.task) ≠ .null)
  notifying : ∀ t ≤ numThreads, ∀ f, (s.thread t).ctl = .notifying f →
    s.fate f.task = .returned ∨
      (∃ x, s.fate f.task = .threw x) ∧ s.except (.task f.task) ≠ .null
  event : ∀ h, s.fate h = .pending ∨ (∃ x, s.fate h = .threw x) →
    s.eventState h = activeIncomplete

theorem Cell.replace_ne_null {x : Thrown} {site : Site} {phase : Phase} {cell cell' : Cell}
    (h : cell.replace x site phase = some cell') (hne : cell ≠ .null) : cell' ≠ .null := by
  cases phase <;> cases x <;> cases cell <;> simp [Cell.replace] at h hne <;> subst h <;> simp

theorem Goes.token {c : Ctl} (h : Goes s l c) : c.token = none := by
  cases h <;> rfl

theorem Accesses.token {o : Obj} {x : Thrown} {phase : Phase} {site : Site} {c : Ctl}
    (h : Accesses s l o x phase site c) : c.token = (s.thread l.thread).ctl.token := by
  cases h <;> simp [Ctl.token, *]

theorem token_of_takePoint {t : ℕ} {p : Point} (h : takePoint s t = some p) :
    (s.thread t).ctl.token = none := by
  unfold takePoint at h
  split at h
  next hc => rw [hc]; rfl
  next hc => rw [hc]; rfl
  next hc => rw [hc]; rfl
  next => cases h

theorem spawn_of_ne_freed {h : Handle} {isNested : Bool} {t : ℕ}
    (hcell : s.except (.task h) ≠ .freed) : s.spawn t h isNested =
      { s.setExcept (.task h) .null with
        eventState := Function.update s.eventState h activeIncomplete
        isNested := Function.update s.isNested h isNested
        queued := Function.update s.queued h true
        fate := Function.update s.fate h .pending } := by
  simp [State.spawn, hcell]

namespace Effect

theorem other (he : Effect s l s') {t : ℕ} (ht : t ≠ l.thread) : s'.thread t = s.thread t := by
  cases he with
  | spawn h isNested hact hc hcell => rw [spawn_of_ne_freed hcell]; rfl
  | _ => exact Function.update_of_ne ht _ _

/-- A thread comes to hold a task by taking it. -/
theorem holds_cases (he : Effect s l s') :
    ((s'.thread l.thread).holds.Sublist (s.thread l.thread).holds ∧
      ∀ f ∈ (s'.thread l.thread).frames, f ∈ (s.thread l.thread).frames) ∨
    ∃ h p, s.queued h ∧ s' = s.take l.thread p h ∧
      (s'.thread l.thread).holds = h :: (s.thread l.thread).holds := by
  have hdrop : ∀ c : Ctl, c.token = none →
      (Thread.mk (s.thread l.thread).frames c).holds.Sublist (s.thread l.thread).holds := by
    intro c hc
    simp [Thread.holds, hc]
  cases he with
  | spawn h isNested hact hc hcell =>
    rw [spawn_of_ne_freed hcell]
    exact .inl ⟨.refl _, fun f hf => hf⟩
  | endWait h o hends =>
    left
    simp only [State.endWait, State.goto, State.setThread, Function.update_self]
    refine ⟨hdrop _ ?_, fun f hf => hf⟩
    split <;> rfl
  | endBarrier g raised hends =>
    left
    simp only [State.endBarrier, State.goto, State.setThread, Function.update_self]
    exact ⟨hdrop .functor rfl, fun f hf => hf⟩
  | endTask f rest fate c hc hf hcase =>
    left
    simp only [State.endTask, State.setThread, Function.update_self]
    have htoken : c.token = some f.task := by
      rcases hcase with ⟨-, rfl⟩ | ⟨x, -, -, rfl⟩ <;> rfl
    have hidle : (s.thread l.thread).ctl.token = none := by rw [hc]; rfl
    constructor
    · simp [Thread.holds, htoken, hidle, hf]
    · intro f' hf'
      rw [hf]
      exact List.mem_cons_of_mem f hf'
  | take h p hq hp =>
    right
    refine ⟨h, p, hq, rfl, ?_⟩
    have hidle : Ctl.functor.token = none := rfl
    simp [State.take, State.setThread, Thread.holds, hidle, token_of_takePoint hp]
  | complete f hc hcell =>
    left
    simp only [State.complete, State.goto, State.setThread, Function.update_self]
    refine ⟨hdrop _ ?_, fun f hf => hf⟩
    cases f.point <;> rfl
  | access o x phase site c cell hact haccess hcell =>
    left
    simp only [State.setExcept, State.goto, State.setThread, Function.update_self]
    refine ⟨?_, fun f hf => hf⟩
    simp [Thread.holds, haccess.token]
  | goto c hgoes =>
    left
    simp only [State.goto, State.setThread, Function.update_self]
    exact ⟨hdrop c hgoes.token, fun f hf => hf⟩

theorem holds (he : Effect s l s') {t : ℕ} {h : Handle} (hh : h ∈ (s'.thread t).holds) :
    h ∈ (s.thread t).holds ∨ t = l.thread ∧ s.queued h ∧ s'.queued h = false := by
  by_cases ht : t = l.thread
  · subst ht
    rcases he.holds_cases with ⟨hsub, -⟩ | ⟨h', p, hq, rfl, hholds⟩
    · exact .inl (hsub.subset hh)
    · rw [hholds] at hh
      rcases List.mem_cons.mp hh with rfl | hh
      · exact .inr ⟨rfl, hq, by simp [State.take]⟩
      · exact .inl hh
  · rw [he.other ht] at hh
    exact .inl hh

theorem holds_nodup (he : Effect s l s') {t : ℕ} (hn : (s.thread t).holds.Nodup)
    (hq : ∀ h, s.queued h → h ∉ (s.thread t).holds) : (s'.thread t).holds.Nodup := by
  by_cases ht : t = l.thread
  · subst ht
    rcases he.holds_cases with ⟨hsub, -⟩ | ⟨h, p, hqueued, -, hholds⟩
    · exact hn.sublist hsub
    · rw [hholds]
      exact List.nodup_cons.mpr ⟨hq h hqueued, hn⟩
  · rw [he.other ht]
    exact hn

theorem frames (he : Effect s l s') {t : ℕ} {f : Frame} (hf : f ∈ (s'.thread t).frames) :
    f ∈ (s.thread t).frames ∨ s.queued f.task ∧ s'.fate = s.fate := by
  by_cases ht : t = l.thread
  · subst ht
    rcases he.holds_cases with ⟨-, hframes⟩ | ⟨h, p, hq, rfl, -⟩
    · exact .inl (hframes f hf)
    · simp only [State.take, State.setThread, Function.update_self] at hf
      rcases List.mem_cons.mp hf with rfl | hf
      · exact .inr ⟨hq, rfl⟩
      · exact .inl hf
  · rw [he.other ht] at hf
    exact .inl hf

theorem queued (he : Effect s l s') {h : Handle} (hq : s'.queued h) :
    s.queued h ∨ (∃ isNested, l.act = .spawn h isNested) ∧ s'.fate h = .pending := by
  cases he with
  | spawn h' isNested hact hc hcell =>
    rw [spawn_of_ne_freed hcell] at hq
    by_cases hh : h = h'
    · subst hh
      exact .inr ⟨⟨isNested, hact⟩, by simp [spawn_of_ne_freed hcell]⟩
    · left
      simpa [State.setExcept, hh] using hq
  | take h' p hq' hp =>
    by_cases hh : h = h'
    · subst hh
      exact .inl hq'
    · left
      simpa [State.take, State.setThread, hh] using hq
  | _ => exact .inl hq

/-- What becomes of a task changes by its spawn and by the end of its functor. -/
theorem fate (he : Effect s l s') (h : Handle) :
    s'.fate h = s.fate h ∨ (∃ isNested, l.act = .spawn h isNested ∧ s'.fate h = .pending ∧
      s'.eventState h = activeIncomplete) ∨
    ∃ f rest fate c, (s.thread l.thread).ctl = .functor ∧
      (s.thread l.thread).frames = f :: rest ∧ h = f.task ∧
      s' = s.endTask l.thread f rest fate c := by
  cases he with
  | spawn h' isNested hact hc hcell =>
    rw [spawn_of_ne_freed hcell]
    by_cases hh : h = h'
    · subst hh
      exact .inr (.inl ⟨isNested, hact, by simp, by simp⟩)
    · exact .inl (by simp [hh])
  | endTask f rest fate c hc hf hcase =>
    by_cases hh : h = f.task
    · exact .inr (.inr ⟨f, rest, fate, c, hc, hf, hh, rfl⟩)
    · exact .inl (by simp [State.endTask, State.setThread, hh])
  | _ => exact .inl rfl

/-- A pointer is null again only after a spawn. -/
theorem except_ne_null (he : Effect s l s') {h : Handle} (hne : s.except (.task h) ≠ .null)
    (hact : ∀ isNested, l.act ≠ .spawn h isNested) : s'.except (.task h) ≠ .null := by
  cases he with
  | spawn h' isNested hact' hc hcell =>
    have hh : h ≠ h' := fun hh => hact isNested (hh ▸ hact')
    rw [spawn_of_ne_freed hcell]
    simpa [State.setExcept, hh] using hne
  | access o x phase site c cell hact haccess hcell =>
    by_cases ho : .task h = o
    · subst ho
      simpa [State.setExcept, State.goto, State.setThread] using Cell.replace_ne_null hcell hne
    · simpa [State.setExcept, State.goto, State.setThread, ho] using hne
  | _ => exact hne

/-- The event of a task is complete only after its functor has returned. -/
theorem eventState (he : Effect s l s') (h : Handle) :
    s'.eventState h = s.eventState h ∨ s'.eventState h = activeIncomplete ∨
      ∃ f, (s.thread l.thread).ctl = .notifying f ∧ h = f.task ∧
        s.except (.task h) = .null ∧ s'.fate = s.fate := by
  cases he with
  | spawn h' isNested hact hc hcell =>
    rw [spawn_of_ne_freed hcell]
    by_cases hh : h = h'
    · subst hh
      exact .inr (.inl (by simp))
    · exact .inl (by simp [hh])
  | complete f hc hcell =>
    by_cases hh : h = f.task
    · subst hh
      exact .inr (.inr ⟨f, hc, rfl, hcell, rfl⟩)
    · exact .inl (by simp [State.complete, State.goto, State.setThread, hh])
  | _ => exact .inl rfl

/-- How a thread comes before or into the end of a functor's task. -/
theorem ending (he : Effect s l s') {f : Frame} :
    (∀ x phase, (s'.thread l.thread).ctl = .storing f x phase →
      (phase = .destroy ∧ s'.fate f.task = .threw x) ∨
      ∃ phase', (s.thread l.thread).ctl = .storing f x phase' ∧ s'.fate = s.fate ∧
        (phase = .trace → s'.except (.task f.task) ≠ .null)) ∧
    ((s'.thread l.thread).ctl = .notifying f → s'.fate f.task = .returned ∨
      ∃ x, (s.thread l.thread).ctl = .storing f x .trace ∧ s'.fate = s.fate) := by
  cases he with
  | spawn h isNested hact hc hcell =>
    rw [spawn_of_ne_freed hcell]
    constructor
    · intro x phase hctl
      simp [State.setExcept, hc] at hctl
    · intro hctl
      simp [State.setExcept, hc] at hctl
  | endWait h o hends =>
    simp only [State.endWait, State.goto, State.setThread, Function.update_self]
    constructor
    · intro x phase hctl
      split at hctl <;> cases hctl
    · intro hctl
      split at hctl <;> cases hctl
  | endBarrier g raised hends =>
    simp [State.endBarrier, State.goto, State.setThread]
  | endTask f' rest fate c hc hf hcase =>
    simp only [State.endTask, State.setThread, Function.update_self]
    rcases hcase with ⟨rfl, rfl⟩ | ⟨x, -, rfl, rfl⟩
    · constructor
      · intro x phase hctl
        cases hctl
      · intro hctl
        cases hctl
        exact .inl (Function.update_self _ _ _)
    · constructor
      · intro x' phase hctl
        cases hctl
        exact .inl ⟨rfl, Function.update_self _ _ _⟩
      · intro hctl
        cases hctl
  | take h p hq hp =>
    simp [State.take, State.setThread]
  | complete f' hc hcell =>
    simp only [State.complete, State.goto, State.setThread, Function.update_self]
    constructor
    · intro x phase hctl
      cases hp : f'.point <;> rw [hp] at hctl <;> cases hctl
    · intro hctl
      cases hp : f'.point <;> rw [hp] at hctl <;> cases hctl
  | access o x phase site c cell hact haccess hcell =>
    simp only [State.setExcept, State.goto, State.setThread, Function.update_self]
    constructor
    · intro x' phase' hctl
      right
      cases haccess with
      | storeDestroy f' x hc =>
        cases hctl
        exact ⟨.destroy, hc, trivial, by simp⟩
      | storeAssign f' x hc =>
        cases hctl
        refine ⟨.assign, hc, trivial, ?_⟩
        simp only [Cell.replace, Option.some.injEq] at hcell
        simp [← hcell]
      | storeTrace => cases hctl
      | catchDestroy => cases hctl
      | catchAssign => cases hctl
      | catchTrace => cases hctl
    · intro hctl
      right
      cases haccess with
      | storeTrace f' x hc =>
        cases hctl
        exact ⟨x, hc, trivial⟩
      | storeDestroy => cases hctl
      | storeAssign => cases hctl
      | catchDestroy => cases hctl
      | catchAssign => cases hctl
      | catchTrace => cases hctl
  | goto c hgoes =>
    simp only [State.goto, State.setThread, Function.update_self]
    constructor
    · intro x phase hctl
      subst hctl
      cases hgoes
    · intro hctl
      subst hctl
      cases hgoes

end Effect

theorem holds_of_storing {th : Thread} {f : Frame} {x : Thrown} {phase : Phase}
    (h : th.ctl = .storing f x phase) : f.task ∈ th.holds := by
  simp [Thread.holds, h, Ctl.token]

theorem holds_of_notifying {th : Thread} {f : Frame} (h : th.ctl = .notifying f) :
    f.task ∈ th.holds := by
  simp [Thread.holds, h, Ctl.token]

theorem holds_of_frames {th : Thread} {f : Frame} (h : f ∈ th.frames) : f.task ∈ th.holds :=
  List.mem_append_right _ (List.mem_map_of_mem (f := fun f : Frame => f.task) h)

theorem not_spawned (hd : Respawn numThreads s l) {t : ℕ} (ht : t ≤ numThreads) {h : Handle}
    (hh : h ∈ (s.thread t).holds) : ∀ isNested, l.act ≠ .spawn h isNested := by
  intro isNested hact
  simp only [Respawn, hact] at hd
  exact (hd.2 t ht).1 hh

/-- No other step touches the fate of a task that a thread holds. -/
theorem fate_kept (hs : s.Tracked numThreads) (hd : Respawn numThreads s l)
    (hl : l.thread ≤ numThreads) (he : Effect s l s') {t : ℕ} (ht : t ≤ numThreads) {h : Handle}
    (hh : h ∈ (s.thread t).holds)
    (hnot : t = l.thread → ∀ f rest, (s.thread t).frames = f :: rest → h ≠ f.task) :
    s'.fate h = s.fate h := by
  rcases he.fate h with hsame | ⟨isNested, hact, -⟩ | ⟨f, rest, fate, c, hc, hf, hhf, -⟩
  · exact hsame
  · exact absurd hact (not_spawned hd ht hh isNested)
  · have hmem : h ∈ (s.thread l.thread).holds := by
      rw [hhf]
      exact holds_of_frames (by simp [hf])
    have htl := hs.unique t ht l.thread hl h hh hmem
    exact absurd hhf (hnot htl f rest (htl ▸ hf))

theorem tracked_effect (hs : s.Tracked numThreads) (hd : Respawn numThreads s l)
    (hl : l.thread ≤ numThreads) (he : Effect s l s') : s'.Tracked numThreads where
  nodup := fun t ht => he.holds_nodup (hs.nodup t ht) (hs.queued t ht)
  unique := by
    intro t ht t' ht' h hh hh'
    rcases he.holds hh with hh | ⟨rfl, hq, -⟩ <;> rcases he.holds hh' with hh' | ⟨htl, hq', -⟩
    · exact hs.unique t ht t' ht' h hh hh'
    · exact absurd hh (hs.queued t ht h hq')
    · exact absurd hh' (hs.queued t' ht' h hq)
    · exact htl.symm
  queued := by
    intro t ht h hq hh
    rcases he.holds hh with hh | ⟨-, -, hq'⟩
    · rcases he.queued hq with hq | ⟨⟨isNested, hact⟩, -⟩
      · exact hs.queued t ht h hq hh
      · exact not_spawned hd ht hh isNested hact
    · rw [hq'] at hq
      cases hq
  fresh := by
    intro h hq
    rcases he.queued hq with hq | ⟨-, hp⟩
    · rcases he.fate h with hsame | ⟨isNested, -, hp, -⟩ | ⟨f, rest, fate, c, hc, hf, hh, -⟩
      · rw [hsame]
        exact hs.fresh h hq
      · exact hp
      · have hmem : h ∈ (s.thread l.thread).holds := by
          rw [hh]
          exact holds_of_frames (by simp [hf])
        exact absurd hmem (hs.queued l.thread hl h hq)
    · exact hp
  running := by
    intro t ht f hf
    rcases he.frames hf with hold | ⟨hq, hfate⟩
    · have hrunning := hs.running t ht f hold
      rcases he.fate f.task with hsame | ⟨isNested, -, hp, -⟩ |
        ⟨f', rest, fate, c, hc, hf', hff, rfl⟩
      · rw [hsame]
        exact hrunning
      · exact hp
      · -- the task that has ended is on no stack any more
        have hmem : f.task ∈ (s.thread l.thread).holds := by
          rw [hff]
          exact holds_of_frames (by simp [hf'])
        have htl := hs.unique t ht l.thread hl f.task (holds_of_frames hold) hmem
        subst htl
        have hnodup := hs.nodup l.thread ht
        simp only [Thread.holds, hf', List.map_cons] at hnodup
        have hrest : f ∈ rest := by simpa [State.endTask, State.setThread] using hf
        have hcons := (List.nodup_append.mp hnodup).2.1
        refine absurd ?_ (List.nodup_cons.mp hcons).1
        rw [← hff]
        exact List.mem_map_of_mem (f := fun f : Frame => f.task) hrest
    · rw [hfate]
      exact hs.fresh f.task hq
  storing := by
    intro t ht f x phase hctl
    by_cases htl : t = l.thread
    · subst htl
      rcases he.ending.1 x phase hctl with ⟨rfl, hfate⟩ | ⟨phase', hold, hfate, htrace⟩
      · exact ⟨hfate, by simp⟩
      · rw [hfate]
        exact ⟨(hs.storing _ ht f x phase' hold).1, htrace⟩
    · rw [he.other htl] at hctl
      obtain ⟨hfate, htrace⟩ := hs.storing t ht f x phase hctl
      have hh := holds_of_storing hctl
      constructor
      · rw [← hfate]
        exact fate_kept hs hd hl he ht hh (fun h => absurd h htl)
      · intro hp
        exact he.except_ne_null (htrace hp) (not_spawned hd ht hh)
  notifying := by
    intro t ht f hctl
    by_cases htl : t = l.thread
    · subst htl
      rcases he.ending.2 hctl with hreturned | ⟨x, hold, hfate⟩
      · exact .inl hreturned
      · obtain ⟨hthrew, htrace⟩ := hs.storing _ ht f x .trace hold
        rw [hfate]
        exact .inr ⟨⟨x, hthrew⟩,
          he.except_ne_null (htrace rfl) (not_spawned hd ht (holds_of_storing hold))⟩
    · rw [he.other htl] at hctl
      have hh := holds_of_notifying hctl
      rw [fate_kept hs hd hl he ht hh (fun h => absurd h htl)]
      rcases hs.notifying t ht f hctl with hreturned | ⟨hthrew, hne⟩
      · exact .inl hreturned
      · exact .inr ⟨hthrew, he.except_ne_null hne (not_spawned hd ht hh)⟩
  event := by
    intro h hfate'
    rcases he.eventState h with hsame | hreset | ⟨f, hc, hf, hnull, hfate⟩
    · rw [hsame]
      rcases he.fate h with hfate | ⟨isNested, -, -, hreset⟩ | ⟨f, rest, fate, c, hc, hf, hh, -⟩
      · rw [hfate] at hfate'
        exact hs.event h hfate'
      · rw [← hsame]
        exact hreset
      · refine hs.event h (.inl ?_)
        rw [hh]
        exact hs.running l.thread hl f (by simp [hf])
    · exact hreset
    · rw [hfate] at hfate'
      subst hf
      rcases hs.notifying l.thread hl f hc with hreturned | ⟨-, hne⟩
      · rw [hreturned] at hfate'
        rcases hfate' with hp | ⟨x, hx⟩
        · cases hp
        · cases hx
      · exact absurd hnull hne

theorem tracked_reachable (hr : (system numThreads).Reachable (Respawn numThreads) s) :
    s.Tracked numThreads := by
  refine hr.invariant (I := fun s => s.Tracked numThreads) ?_ ?_
  · refine ⟨?_, ?_, ?_, ?_, ?_, ?_, ?_, ?_⟩ <;>
      simp [system, initial, Thread.holds, Ctl.token]
  · intro s l s' hs hd hstep
    obtain ⟨hl, he⟩ := step_effect hstep
    exact tracked_effect hs hd hl he

/-- In the catch blocks above the point. -/
def Ctl.Unwinds (p : Point) : Ctl → Prop
  | .catching p' _ _ _ _ => p' = p
  | .rethrowing p' _ _ _ => p' = p
  | _ => False

/-- After the functor of a task a thread goes on by itself up to its scheduling point. -/
theorem tick_of_step (h : step numThreads s l = some s') (hp : takePoint s l.thread = none)
    (hfunctor : (s.thread l.thread).ctl ≠ .functor)
    (hwaiting : ∀ x, (s.thread l.thread).ctl ≠ .waiting x)
    (hbarrier : ∀ g, (s.thread l.thread).ctl ≠ .inBarrier g) : tick s l.thread = some s' := by
  simp only [step, Option.ite_none_right_eq_some] at h
  obtain ⟨-, h⟩ := h
  split at h
  next => exact h
  next => simp [hp] at h
  next g _ hc => exact absurd hc (hbarrier g)
  next x _ hc => exact absurd hc (hwaiting x)
  next hc _ _ => exact absurd hc hfunctor
  next => cases h

theorem goto_ctl (s : State) (t : ℕ) (c : Ctl) : ((s.goto t c).thread t).ctl = c := by
  simp [State.goto, State.setThread]

/-- The check of `notify` throws. -/
theorem notify_throws (h : step numThreads s l = some s') {f : Frame}
    (hc : (s.thread l.thread).ctl = .notifying f) (hne : s.except (.task f.task) ≠ .null) :
    (s'.thread l.thread).ctl = .undefined ∨ (s'.thread l.thread).ctl.Unwinds f.point := by
  have htick := tick_of_step h (by simp [takePoint, hc]) (by simp [hc]) (by simp [hc])
    (by simp [hc])
  simp only [tick, hc] at htick
  split at htick
  next hnull => exact absurd hnull hne
  next e hcell =>
    cases htick
    rw [goto_ctl]
    exact .inr rfl
  next hcell =>
    cases htick
    exact .inl (goto_ctl s l.thread _)

/-- A thread that unwinds does not come back to the point. -/
theorem unwinds_step (h : step numThreads s l = some s') {p : Point}
    (hu : (s.thread l.thread).ctl.Unwinds p) : (s'.thread l.thread).ctl ≠ .resume p := by
  have hresume : ∀ c : Ctl, c.Unwinds p ∨ c = .undefined → c ≠ .resume p := by
    intro c hc heq
    rcases hc with hc | hc <;> subst heq <;> cases p <;> simp [Ctl.resume, Ctl.Unwinds] at hc
  cases hc : (s.thread l.thread).ctl with
  | catching p' c rest e phase =>
    rw [hc] at hu
    cases hu
    have htick := tick_of_step h (by simp [takePoint, hc]) (by simp [hc]) (by simp [hc])
      (by simp [hc])
    simp only [tick, hc, Option.some.injEq] at htick
    subst htick
    unfold State.access
    split
    · rw [goto_ctl]
      cases phase <;> exact hresume _ (.inl rfl)
    · rw [goto_ctl]
      exact hresume _ (.inr rfl)
  | rethrowing p' c rest e =>
    rw [hc] at hu
    cases hu
    have htick := tick_of_step h (by simp [takePoint, hc]) (by simp [hc]) (by simp [hc])
      (by simp [hc])
    simp only [tick, hc] at htick
    split at htick
    next e' hcell =>
      cases htick
      cases rest with
      | cons c' rest' =>
        simp only [State.passOn, goto_ctl]
        exact hresume _ (.inl rfl)
      | nil =>
        cases p <;> simp [State.passOn, State.endWait, State.endBarrier, goto_ctl, Ctl.resume]
    next =>
      cases htick
      rw [goto_ctl]
      exact hresume _ (.inr rfl)
  | functor => simp [hc, Ctl.Unwinds] at hu
  | waiting => simp [hc, Ctl.Unwinds] at hu
  | inBarrier => simp [hc, Ctl.Unwinds] at hu
  | storing => simp [hc, Ctl.Unwinds] at hu
  | notifying => simp [hc, Ctl.Unwinds] at hu
  | left => simp [hc, Ctl.Unwinds] at hu
  | undefined => simp [hc, Ctl.Unwinds] at hu

/-- In every run, the event of a task whose functor has thrown stays incomplete, its `notify` ends
in the catch blocks above the scheduling point, and from them a thread never comes back. -/
theorem throw_never_completes (hr : (system numThreads).Reachable (Respawn numThreads) s) :
    (∀ h x, s.fate h = .threw x → s.eventState h = activeIncomplete) ∧
      (∀ l s' f x, step numThreads s l = some s' → (s.thread l.thread).ctl = .notifying f →
        s.fate f.task = .threw x → s'.eventState f.task = activeIncomplete ∧
          ((s'.thread l.thread).ctl = .undefined ∨
            (s'.thread l.thread).ctl.Unwinds f.point)) ∧
      ∀ l s' p, step numThreads s l = some s' → (s.thread l.thread).ctl.Unwinds p →
        (s'.thread l.thread).ctl ≠ .resume p := by
  have hs := tracked_reachable hr
  refine ⟨fun h x hx => hs.event h (.inr ⟨x, hx⟩), ?_, fun l s' p hstep hu => unwinds_step hstep hu⟩
  intro l s' f x hstep hc hx
  obtain ⟨hl, he⟩ := step_effect hstep
  have hne : s.except (.task f.task) ≠ .null := by
    rcases hs.notifying l.thread hl f hc with hreturned | ⟨-, hne⟩
    · rw [hreturned] at hx
      cases hx
    · exact hne
  refine ⟨?_, notify_throws hstep hc hne⟩
  rcases he.eventState f.task with hsame | hreset | ⟨f', hc', hf, hnull, -⟩
  · rw [hsame]
    exact hs.event f.task (.inr ⟨x, hx⟩)
  · exact hreset
  · exact absurd hnull hne

/-- A task of the main thread, taken from the work loop, throws something unknown. -/
def throwRun : List Label :=
  [⟨1, .spawn 0 true⟩, ⟨0, .take 0⟩, ⟨0, .throw .other⟩, ⟨0, .tick⟩, ⟨0, .tick⟩, ⟨0, .tick⟩]

theorem throw_never_completes_throwRun :
    ((system 1).final throwRun).fate 0 = .threw .other ∧
      ((system 1).final throwRun).eventState 0 = activeIncomplete :=
  have hr : (system 1).Reachable (Respawn 1) ((system 1).final throwRun) :=
    System.reachable_final (by decide)
  ⟨by decide, (throw_never_completes hr).1 0 .other (by decide)⟩

/-- The worker of `throwRun` leaves its loop, and the event of the task stays incomplete. -/
theorem worker_leaves_throwRun :
    (system 1).Along (fun s l _ => Respawn 1 s l) (system 1).initial
        (throwRun ++ List.replicate 5 ⟨0, .tick⟩) ∧
      (((system 1).final throwRun).thread 0).ctl = .notifying ⟨0, .work⟩ ∧
      (((system 1).final (throwRun ++ List.replicate 5 ⟨0, .tick⟩)).thread 0).ctl = .left ∧
      ((system 1).final (throwRun ++ List.replicate 5 ⟨0, .tick⟩)).eventState 0 =
        activeIncomplete := by
  decide

end PFunc.Exceptions
