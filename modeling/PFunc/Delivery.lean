import PFunc.Completion

/-!
# Who receives an exception

A call of `wait` that returns by an exception returns by the one its task has thrown, and tasks
keep no others, as long as the functors that throw were taken from the work loop or in a wait
for themselves, no two threads replace the exception of one object at a time,
no check meets a pointer that is being replaced, and no wake-up comes before completion.
-/

namespace PFunc.Exceptions

open LabelledRuns Atomics Event

variable {numThreads : ℕ} {s s' : State} {l : Label}

/-- The task for which the scheduling point waits. -/
def Point.awaited : Point → Option Handle
  | .wait h => some h
  | _ => none

/-- No other thread is replacing the exception of the object. -/
def State.FreeFor (numThreads : ℕ) (s : State) (t : ℕ) (o : Obj) : Prop :=
  ∀ t' ≤ numThreads, t' ≠ t → ∀ r ∈ (s.thread t').ctl.replacing, r.1 ≠ o

instance (s : State) (t : ℕ) (o : Obj) : Decidable (s.FreeFor numThreads t o) := by
  unfold State.FreeFor
  infer_instance

/-- A step of a run in which exceptions reach the right waits. -/
def Careful (numThreads : ℕ) (s : State) (l : Label) : Prop :=
  match l.act, (s.thread l.thread).ctl with
  | .throw _, .functor =>
    ∀ f ∈ (s.thread l.thread).frames.head?, f.point = .work ∨ f.point = .wait f.task
  | .wait h, .functor => s.except (.task h) ≠ .freed
  | .wake, .waiting h => s.eventState h ≠ activeIncomplete
  | .tick, .notifying f => s.except (.task f.task) ≠ .freed
  | .tick, .storing f _ .destroy => s.FreeFor numThreads l.thread (.task f.task)
  | .tick, .catching _ c _ _ .destroy => s.FreeFor numThreads l.thread c.obj
  | _, _ => True

instance (s : State) (l : Label) : Decidable (Careful numThreads s l) := by
  unfold Careful
  rcases l.act with ⟨⟩ <;> rcases (s.thread l.thread).ctl with ⟨⟩ <;> try infer_instance
  case tick.storing f x phase => rcases phase with ⟨⟩ <;> infer_instance
  case tick.catching p c rest e phase => rcases phase with ⟨⟩ <;> infer_instance

/-- A call of `wait` has returned as its task demands. -/
def Return.Right (r : Return) : Prop :=
  match r.fate, r.outcome with
  | .threw x, .rethrown e => e.form = x.form
  | .idle, .normal => True
  | .returned, .normal => True
  | _, _ => False

instance (r : Return) : Decidable r.Right := by
  unfold Return.Right
  split <;> infer_instance

structure State.Delivered (numThreads : ℕ) (s : State) : Prop where
  returns : ∀ r ∈ s.returns, r.Right
  /-- no exception of another task leaves a call of `barrier` -/
  passages : ∀ b ∈ s.passages, b.raised = none
  stored : ∀ h e, s.except (.task h) = .live e →
    ∃ x, s.fate h = .threw x ∧ e.form = x.form
  defined : ∀ t ≤ numThreads, (s.thread t).ctl ≠ .undefined

/-! ### The pointers that threads replace -/

/-- One thread at a time replaces the exception of an object; nobody else sees it freed, and
what it has assigned stays. -/
structure State.Pointers (numThreads : ℕ) (s : State) : Prop where
  alone : ∀ t ≤ numThreads, ∀ t' ≤ numThreads, ∀ o x b x' b',
    (s.thread t).ctl.replacing = some (o, x, b) →
      (s.thread t').ctl.replacing = some (o, x', b') → t = t'
  freed : ∀ o, s.except o = .freed →
    ∃ t ≤ numThreads, ∃ x, (s.thread t).ctl.replacing = some (o, x, false)
  held : ∀ t ≤ numThreads, ∀ o x, (s.thread t).ctl.replacing = some (o, x, true) →
    ∃ e, s.except o = .live e ∧ e.form = x.form

/-- What a thread carries up from its scheduling point, and the catch blocks it meets. -/
def Ctl.carried : Ctl → Option (Point × List Catch × Exception)
  | .catching p c rest e _ => some (p, c :: rest, e)
  | .rethrowing p c rest e => some (p, c :: rest, e)
  | _ => none

/-- Of the tasks only the awaited one stores an exception on its way up. -/
def State.Chained (numThreads : ℕ) (s : State) : Prop :=
  ∀ t ≤ numThreads, ∀ p cs e, (s.thread t).ctl.carried = some (p, cs, e) →
    ∀ c ∈ cs, ∀ h, c.obj = .task h → p = .wait h

theorem Accesses.replacing {o : Obj} {x : Thrown} {phase : Phase} {site : Site} {c : Ctl}
    (h : Accesses s l o x phase site c) :
    match phase with
    | .destroy => (s.thread l.thread).ctl.replacing = none ∧ c.replacing = some (o, x, false)
    | .assign => (s.thread l.thread).ctl.replacing = some (o, x, false) ∧
        c.replacing = some (o, x, true)
    | .trace => (s.thread l.thread).ctl.replacing = some (o, x, true) ∧
        (c.replacing = none ∨ c.replacing = some (o, x, true)) := by
  cases h <;> simp [Ctl.replacing, *]

theorem Accesses.freeFor {o : Obj} {x : Thrown} {site : Site} {c : Ctl}
    (h : Accesses s l o x .destroy site c) (hact : l.act = .tick)
    (hcareful : Careful numThreads s l) : s.FreeFor numThreads l.thread o := by
  cases h with
  | storeDestroy f x hc => simpa [Careful, hact, hc] using hcareful
  | catchDestroy p c rest e hc => simpa [Careful, hact, hc] using hcareful

theorem Goes.replacing {c : Ctl} (h : Goes s l c) : c.replacing = none := by
  cases h <;> rfl

/-- A thread that has still to assign a pointer does so next. -/
theorem Goes.not_assigning {c : Ctl} (h : Goes s l c) (o : Obj) (x : Thrown) :
    (s.thread l.thread).ctl.replacing ≠ some (o, x, false) := by
  intro hr
  cases h with
  | fail hfails =>
    cases hfails with
    | store f x' phase hact hc hcell => cases phase <;> simp [hc, Ctl.replacing, Cell.replace] at hr hcell
    | caught p c rest e phase hact hc hcell =>
      cases phase <;> simp [hc, Ctl.replacing, Cell.replace] at hr hcell
    | _ => simp_all [Ctl.replacing]
  | _ => simp_all [Ctl.replacing]

theorem WaitEnds.not_assigning {h : Handle} {out : Outcome} (hends : WaitEnds s l h out) (o : Obj)
    (x : Thrown) : (s.thread l.thread).ctl.replacing ≠ some (o, x, false) := by
  intro hr
  cases hends <;> simp_all [Ctl.replacing]

theorem BarrierEnds.not_assigning {g : GroupId} {raised : Option Exception}
    (hends : BarrierEnds s l g raised) (o : Obj) (x : Thrown) :
    (s.thread l.thread).ctl.replacing ≠ some (o, x, false) := by
  intro hr
  cases hends <;> simp_all [Ctl.replacing]

theorem Cell.replace_trace (x : Thrown) (site : Site) (e : Exception) :
    ∃ e', (Cell.live e).replace x site .trace = some (.live e') ∧ e'.form = e.form := by
  cases x with
  | pfunc error => exact ⟨_, rfl, rfl⟩
  | std name what => exact ⟨_, rfl, rfl⟩
  | other => exact ⟨_, rfl, rfl⟩

/-- A step that touches no pointer and assigns none. -/
theorem State.Pointers.quiet (hs : s.Pointers numThreads) {t : ℕ}
    (hexcept : s'.except = s.except) (hnone : (s'.thread t).ctl.replacing = none)
    (hother : ∀ t', t' ≠ t → s'.thread t' = s.thread t')
    (hnot : ∀ o x, (s.thread t).ctl.replacing ≠ some (o, x, false)) : s'.Pointers numThreads := by
  have hold : ∀ t' r, (s'.thread t').ctl.replacing = some r →
      (s.thread t').ctl.replacing = some r := by
    intro t' r hr
    by_cases ht : t' = t
    · rw [ht, hnone] at hr
      cases hr
    · rwa [hother t' ht] at hr
  constructor
  case alone =>
    intro t₁ ht₁ t₂ ht₂ o x b x' b' h₁ h₂
    exact hs.alone t₁ ht₁ t₂ ht₂ o x b x' b' (hold t₁ _ h₁) (hold t₂ _ h₂)
  case freed =>
    intro o ho
    rw [hexcept] at ho
    obtain ⟨t', ht', x, hr⟩ := hs.freed o ho
    refine ⟨t', ht', x, ?_⟩
    have hne : t' ≠ t := by
      intro he
      exact hnot o x (he ▸ hr)
    rwa [hother t' hne]
  case held =>
    intro t' ht' o x hr
    rw [hexcept]
    exact hs.held t' ht' o x (hold t' _ hr)

/-- A thread that replaces the exception of a task runs it or waits for it. -/
theorem engaged (hchained : s.Chained numThreads) {t : ℕ} (ht : t ≤ numThreads) {h : Handle}
    {x : Thrown} {b : Bool} (hr : (s.thread t).ctl.replacing = some (.task h, x, b)) :
    h ∈ (s.thread t).holds ∨ (s.thread t).Awaits h := by
  have hwait : ∀ p c rest e, (s.thread t).ctl.carried = some (p, c :: rest, e) →
      (s.thread t).ctl.point = some p → c.obj = .task h → (s.thread t).Awaits h := by
    intro p c rest e hc hp ho
    have := hchained t ht p (c :: rest) e hc c (by simp) h ho
    exact .inl (by rw [hp, this])
  cases hc : (s.thread t).ctl with
  | storing f x' phase =>
    left
    have hf : h = f.task := by
      rw [hc] at hr
      cases phase <;> simp [Ctl.replacing] at hr <;> exact hr.1.symm
    rw [hf]
    exact holds_of_storing hc
  | catching p c rest e phase =>
    right
    refine hwait p c rest e (by rw [hc]; rfl) (by rw [hc]; rfl) ?_
    rw [hc] at hr
    cases phase <;> simp [Ctl.replacing] at hr <;> exact hr.1
  | rethrowing p c rest e =>
    right
    refine hwait p c rest e (by rw [hc]; rfl) (by rw [hc]; rfl) ?_
    rw [hc] at hr
    simp only [Ctl.replacing, Option.some.injEq, Prod.mk.injEq] at hr
    exact hr.1
  | _ => simp [hc, Ctl.replacing] at hr

theorem not_replacing_of_spawn (hchained : s.Chained numThreads) (hd : Respawn numThreads s l)
    {h : Handle} {isNested : Bool} (hact : l.act = .spawn h isNested) {t : ℕ}
    (ht : t ≤ numThreads) {x : Thrown} {b : Bool} :
    (s.thread t).ctl.replacing ≠ some (.task h, x, b) := by
  intro hr
  simp only [Respawn, hact] at hd
  obtain ⟨hholds, hawaits⟩ := hd.2 t ht
  exact (engaged hchained ht hr).elim hholds hawaits

/-- Whoever moves on a pointer is the only one that replaces its object. -/
theorem State.Pointers.freeFor (hs : s.Pointers numThreads) (hcareful : Careful numThreads s l)
    (hl : l.thread ≤ numThreads) {o : Obj} {x : Thrown} {phase : Phase} {site : Site} {c : Ctl}
    (hact : l.act = .tick) (haccess : Accesses s l o x phase site c) :
    s.FreeFor numThreads l.thread o := by
  intro t ht hne r hr ho
  obtain ⟨o', x', b⟩ := r
  cases ho
  have hshape := haccess.replacing
  cases phase with
  | destroy => exact haccess.freeFor hact hcareful t ht hne _ hr rfl
  | assign => exact hne (hs.alone t ht _ hl _ _ _ _ _ hr hshape.1)
  | trace => exact hne (hs.alone t ht _ hl _ _ _ _ _ hr hshape.1)

theorem Accesses.replacing_next {o o' : Obj} {x x' : Thrown} {phase : Phase} {site : Site} {c : Ctl}
    {b : Bool} (haccess : Accesses s l o x phase site c) (hr : c.replacing = some (o', x', b)) :
    o' = o ∧ x' = x := by
  have hshape := haccess.replacing
  cases phase with
  | destroy =>
    rw [hshape.2] at hr
    cases hr
    exact ⟨rfl, rfl⟩
  | assign =>
    rw [hshape.2] at hr
    cases hr
    exact ⟨rfl, rfl⟩
  | trace =>
    rcases hshape.2 with hnone | hsome
    · rw [hnone] at hr
      cases hr
    · rw [hsome] at hr
      cases hr
      exact ⟨rfl, rfl⟩

theorem pointers_access (hs : s.Pointers numThreads) (hcareful : Careful numThreads s l)
    (hl : l.thread ≤ numThreads) {o : Obj} {x : Thrown} {phase : Phase} {site : Site} {c : Ctl}
    {cell : Cell} (hact : l.act = .tick) (haccess : Accesses s l o x phase site c)
    (hcell : (s.except o).replace x site phase = some cell) :
    ((s.setExcept o cell).goto l.thread c).Pointers numThreads := by
  have hself : (((s.setExcept o cell).goto l.thread c).thread l.thread).ctl = c :=
    goto_ctl _ _ _
  have hother : ∀ t ≠ l.thread, ((s.setExcept o cell).goto l.thread c).thread t = s.thread t :=
    fun t ht => Function.update_of_ne ht _ _
  have hfree := hs.freeFor hcareful hl hact haccess
  constructor
  case alone =>
    intro t ht t' ht' o' x₁ b₁ x₂ b₂ h₁ h₂
    by_cases hne : t = l.thread <;> by_cases hne' : t' = l.thread
    · rw [hne, hne']
    · subst hne
      rw [hself] at h₁
      rw [hother t' hne'] at h₂
      obtain ⟨rfl, rfl⟩ := haccess.replacing_next h₁
      exact absurd rfl (hfree t' ht' hne' _ h₂)
    · subst hne'
      rw [hself] at h₂
      rw [hother t hne] at h₁
      obtain ⟨rfl, rfl⟩ := haccess.replacing_next h₂
      exact absurd rfl (hfree t ht hne _ h₁)
    · rw [hother t hne] at h₁
      rw [hother t' hne'] at h₂
      exact hs.alone t ht t' ht' o' x₁ b₁ x₂ b₂ h₁ h₂
  case freed =>
    intro o' ho'
    have hshape := haccess.replacing
    by_cases hne : o' = o
    · subst hne
      have hfreed : cell = .freed := by simpa [State.setExcept, State.goto, State.setThread] using ho'
      subst hfreed
      cases phase with
      | destroy => exact ⟨l.thread, hl, x, by rw [hself]; exact hshape.2⟩
      | assign => simp [Cell.replace] at hcell
      | trace =>
        obtain ⟨e, he, -⟩ := hs.held l.thread hl o' x hshape.1
        obtain ⟨e', he', -⟩ := Cell.replace_trace x site e
        rw [he, he'] at hcell
        cases hcell
    · have hold : s.except o' = .freed := by
        simpa [State.setExcept, State.goto, State.setThread, hne] using ho'
      obtain ⟨t, ht, x', hr⟩ := hs.freed o' hold
      refine ⟨t, ht, x', ?_⟩
      have htl : t ≠ l.thread := by
        intro htl
        subst htl
        cases phase <;> rw [hshape.1] at hr <;> cases hr
        all_goals exact hne rfl
      rwa [hother t htl]
  case held =>
    intro t ht o' x' hr
    have hshape := haccess.replacing
    by_cases htl : t = l.thread
    · subst htl
      rw [hself] at hr
      obtain ⟨rfl, rfl⟩ := haccess.replacing_next hr
      cases phase with
      | destroy =>
        rw [hshape.2] at hr
        cases hr
      | assign =>
        simp only [Cell.replace, Option.some.injEq] at hcell
        subst hcell
        exact ⟨x'.convert site, by simp [State.setExcept, State.goto, State.setThread], by simp⟩
      | trace =>
        obtain ⟨e, he, hform⟩ := hs.held l.thread hl o' x' hshape.1
        obtain ⟨e', he', hform'⟩ := Cell.replace_trace x' site e
        rw [he, he'] at hcell
        cases hcell
        exact ⟨e', by simp [State.setExcept, State.goto, State.setThread], hform'.trans hform⟩
    · rw [hother t htl] at hr
      have hne : o' ≠ o := hfree t ht htl _ hr
      obtain ⟨e, he, hform⟩ := hs.held t ht o' x' hr
      exact ⟨e, by simpa [State.setExcept, State.goto, State.setThread, hne] using he, hform⟩

theorem pointers_effect (hs : s.Pointers numThreads) (hchained : s.Chained numThreads)
    (hd : Respawn numThreads s l) (hcareful : Careful numThreads s l) (hl : l.thread ≤ numThreads)
    (he : Effect s l s') : s'.Pointers numThreads := by
  have hother := fun t ht => he.other (t := t) ht
  cases he with
  | access o x phase site c cell hact haccess hcell =>
    exact pointers_access hs hcareful hl hact haccess hcell
  | spawn h isNested hact hc hcell =>
    have hnot := fun {t} ht {x b} =>
      not_replacing_of_spawn hchained hd hact (t := t) ht (x := x) (b := b)
    rw [spawn_of_ne_freed hcell]
    constructor
    case alone => exact hs.alone
    case freed =>
      intro o ho
      have hne : o ≠ .task h := by
        intro hoh
        subst hoh
        simp [State.setExcept] at ho
      exact hs.freed o (by simpa [State.setExcept, hne] using ho)
    case held =>
      intro t ht o x hr
      have hne : o ≠ .task h := by
        intro hoh
        subst hoh
        exact hnot ht hr
      obtain ⟨e, he, hform⟩ := hs.held t ht o x hr
      exact ⟨e, by simpa [State.setExcept, hne] using he, hform⟩
  | endWait h o hends =>
    refine hs.quiet (t := l.thread) rfl ?_ hother hends.not_assigning
    rw [State.endWait, goto_ctl]
    split <;> rfl
  | endBarrier g raised hends =>
    refine hs.quiet (t := l.thread) rfl ?_ hother hends.not_assigning
    rw [State.endBarrier, goto_ctl]
    rfl
  | endTask f rest fate c hc hf hcase =>
    refine hs.quiet (t := l.thread) rfl ?_ hother (by simp [hc, Ctl.replacing])
    simp only [State.endTask, State.setThread, Function.update_self]
    rcases hcase with ⟨-, rfl⟩ | ⟨x, -, -, rfl⟩ <;> rfl
  | take h p hq hp =>
    refine hs.quiet (t := l.thread) rfl ?_ hother ?_
    · simp [State.take, State.setThread, Ctl.replacing]
    · intro o x hr
      unfold takePoint at hp
      split at hp
      next hc => simp [hc, Ctl.replacing] at hr
      next hc => simp [hc, Ctl.replacing] at hr
      next hc => simp [hc, Ctl.replacing] at hr
      next => cases hp
  | complete f hc hcell =>
    refine hs.quiet (t := l.thread) rfl ?_ hother (by simp [hc, Ctl.replacing])
    rw [State.complete, goto_ctl]
    cases f.point <;> rfl
  | goto c hgoes =>
    refine hs.quiet (t := l.thread) rfl ?_ hother hgoes.not_assigning
    rw [goto_ctl]
    exact hgoes.replacing

/-! ### What is thrown, carried and stored -/

/-- The task whose functor has ended, with its point, up to the end of `notify`'s check. -/
def Ctl.ended : Ctl → Option Frame
  | .storing f _ _ => some f
  | .notifying f => some f
  | _ => none

structure State.Sound (numThreads : ℕ) (s : State) : Prop where
  own : ∀ t ≤ numThreads, ∀ f, (s.thread t).ctl.ended = some f → ∀ x, s.fate f.task = .threw x →
    f.point = .work ∨ f.point = .wait f.task
  chained : s.Chained numThreads
  outside : ∀ t ≤ numThreads, ∀ p cs e, (s.thread t).ctl.carried = some (p, cs, e) →
    ∀ g, p ≠ .barrier g
  carried : ∀ t ≤ numThreads, ∀ p cs e, (s.thread t).ctl.carried = some (p, cs, e) →
    ∀ h ∈ p.awaited, ∃ x, s.fate h = .threw x ∧ e.form = x.form
  pointers : s.Pointers numThreads
  delivered : s.Delivered numThreads

/-- A task that has thrown stays so until it is respawned. -/
theorem threw_kept (hs : s.Tracked numThreads) (hl : l.thread ≤ numThreads) (he : Effect s l s')
    {h : Handle} (hact : ∀ isNested, l.act ≠ .spawn h isNested) {x : Thrown}
    (hx : s.fate h = .threw x) : s'.fate h = .threw x := by
  rcases he.fate h with hsame | ⟨isNested, hspawn, -⟩ | ⟨f, rest, fate, c, hc, hf, rfl, -⟩
  · rw [hsame]
    exact hx
  · exact absurd hspawn (hact isNested)
  · rw [hs.running l.thread hl f (by simp [hf])] at hx
    cases hx

theorem Goes.ended {c : Ctl} (h : Goes s l c) : c.ended = none := by
  cases h <;> rfl

theorem holds_of_ended {th : Thread} {f : Frame} (h : th.ctl.ended = some f) :
    f.task ∈ th.holds := by
  cases hc : th.ctl <;> simp [hc, Ctl.ended] at h
  · subst h
    exact holds_of_storing hc
  · subst h
    exact holds_of_notifying hc

theorem own_effect (hs : s.Sound numThreads) (htracked : s.Tracked numThreads)
    (hd : Respawn numThreads s l) (hcareful : Careful numThreads s l) (hl : l.thread ≤ numThreads)
    (he : Effect s l s') : ∀ t ≤ numThreads, ∀ f, (s'.thread t).ctl.ended = some f →
      ∀ x, s'.fate f.task = .threw x → f.point = .work ∨ f.point = .wait f.task := by
  intro t ht f hended x hx
  by_cases htl : t = l.thread
  swap
  · rw [he.other htl] at hended
    rw [fate_kept htracked hd hl he ht (holds_of_ended hended) (fun h => absurd h htl)] at hx
    exact hs.own t ht f hended x hx
  subst htl
  cases he with
  | spawn h isNested hact hc hcell =>
    rw [spawn_of_ne_freed hcell] at hended
    simp [State.setExcept, hc, Ctl.ended] at hended
  | endWait h o hends =>
    rw [State.endWait, goto_ctl] at hended
    split at hended <;> cases hended
  | endBarrier g raised hends =>
    rw [State.endBarrier, goto_ctl] at hended
    cases hended
  | endTask f' rest fate c hc hf hcase =>
    simp only [State.endTask, State.setThread, Function.update_self] at hended
    rcases hcase with ⟨rfl, rfl⟩ | ⟨x', hact, rfl, rfl⟩
    · cases hended
      simp [State.endTask] at hx
    · cases hended
      have hown := hcareful
      simp only [Careful, hact, hc, hf, List.head?_cons, Option.mem_def, Option.some.injEq,
        forall_eq'] at hown
      exact hown
  | take h p hq hp => simp [State.take, State.setThread, Ctl.ended] at hended
  | complete f' hc hcell =>
    rw [State.complete, goto_ctl] at hended
    cases hp : f'.point <;> rw [hp] at hended <;> cases hended
  | access o x' phase site c cell hact haccess hcell =>
    rw [goto_ctl] at hended
    have hold : (s.thread l.thread).ctl.ended = some f := by
      cases haccess <;> simp_all [Ctl.ended]
    exact hs.own l.thread ht f hold x hx
  | goto c hgoes =>
    rw [goto_ctl, hgoes.ended] at hended
    cases hended

/-- Where what a thread carries comes from. -/
theorem Effect.carried (he : Effect s l s') {p : Point} {cs : List Catch} {e : Exception}
    (hc' : (s'.thread l.thread).ctl.carried = some (p, cs, e)) :
    (s.thread l.thread).ctl.carried = some (p, cs, e) ∨
      (∃ c e₀, (s.thread l.thread).ctl = .rethrowing p c cs e₀ ∧ s.except c.obj = .live e) ∨
      ∃ f, (s.thread l.thread).ctl = .notifying f ∧ p = f.point ∧
        s.except (.task f.task) = .live e ∧ cs = (p.catches l.thread).1 :: (p.catches l.thread).2 := by
  cases he with
  | spawn h isNested hact hc hcell =>
    rw [spawn_of_ne_freed hcell] at hc'
    simp [State.setExcept, hc, Ctl.carried] at hc'
  | endWait h o hends =>
    rw [State.endWait, goto_ctl] at hc'
    split at hc' <;> cases hc'
  | endBarrier g raised hends =>
    rw [State.endBarrier, goto_ctl] at hc'
    cases hc'
  | endTask f rest fate c hc hf hcase =>
    simp only [State.endTask, State.setThread, Function.update_self] at hc'
    rcases hcase with ⟨-, rfl⟩ | ⟨x, -, -, rfl⟩ <;> cases hc'
  | take h p' hq hp => simp [State.take, State.setThread, Ctl.carried] at hc'
  | complete f hc hcell =>
    rw [State.complete, goto_ctl] at hc'
    cases hp : f.point <;> rw [hp] at hc' <;> cases hc'
  | access o x phase site c cell hact haccess hcell =>
    left
    rw [goto_ctl] at hc'
    cases haccess <;> simp_all [Ctl.carried]
  | goto c hgoes =>
    right
    rw [goto_ctl] at hc'
    cases hgoes with
    | notify f e' hc hcell =>
      cases hc'
      exact .inr ⟨f, hc, rfl, hcell, rfl⟩
    | rethrow p' c c' rest e₀ e' hc hcell =>
      cases hc'
      exact .inl ⟨c, e₀, hc, hcell⟩
    | _ => cases hc'

theorem chained_effect (hs : s.Chained numThreads) (he : Effect s l s') : s'.Chained numThreads := by
  intro t ht p cs e hc' c hc h ho
  by_cases htl : t = l.thread
  swap
  · rw [he.other htl] at hc'
    exact hs t ht p cs e hc' c hc h ho
  subst htl
  rcases he.carried hc' with hold | ⟨c₀, e₀, hold, -⟩ | ⟨f, -, -, -, rfl⟩
  · exact hs l.thread ht p cs e hold c hc h ho
  · exact hs l.thread ht p (c₀ :: cs) e₀ (by rw [hold]; rfl) c (List.mem_cons_of_mem c₀ hc) h ho
  · cases p with
    | work => simp_all [Point.catches]
    | wait h' =>
      simp only [Point.catches, List.mem_cons, List.not_mem_nil, or_false] at hc
      rcases hc with rfl | rfl
      · cases ho
      · cases ho
        rfl
    | barrier g =>
      simp only [Point.catches, List.mem_cons, List.not_mem_nil, or_false] at hc
      rcases hc with rfl | rfl | rfl | rfl | rfl <;> cases ho

theorem point_of_carried {c : Ctl} {p : Point} {cs : List Catch} {e : Exception}
    (h : c.carried = some (p, cs, e)) : c.point = some p := by
  cases c <;> simp [Ctl.carried] at h
  · rw [h.1]
    rfl
  · rw [h.1]
    rfl

/-- What a thread carries was not thrown at a barrier. -/
theorem outside_effect (hs : s.Sound numThreads) (he : Effect s l s') :
    ∀ t ≤ numThreads, ∀ p cs e, (s'.thread t).ctl.carried = some (p, cs, e) →
      ∀ g, p ≠ .barrier g := by
  intro t ht p cs e hc' g
  by_cases htl : t = l.thread
  swap
  · rw [he.other htl] at hc'
    exact hs.outside t ht p cs e hc' g
  subst htl
  rcases he.carried hc' with hold | ⟨c, e₀, hold, -⟩ | ⟨f, hold, rfl, hcell, -⟩
  · exact hs.outside l.thread ht p cs e hold g
  · exact hs.outside l.thread ht p (c :: cs) e₀ (by rw [hold]; rfl) g
  · obtain ⟨x, hx, -⟩ := hs.delivered.stored f.task e hcell
    rcases hs.own l.thread ht f (by rw [hold]; rfl) x hx with hp | hp <;> simp [hp]

theorem carried_effect (hs : s.Sound numThreads) (htracked : s.Tracked numThreads)
    (hd : Respawn numThreads s l) (hl : l.thread ≤ numThreads) (he : Effect s l s') :
    ∀ t ≤ numThreads, ∀ p cs e, (s'.thread t).ctl.carried = some (p, cs, e) →
      ∀ h ∈ p.awaited, ∃ x, s'.fate h = .threw x ∧ e.form = x.form := by
  intro t ht p cs e hc' h hh
  -- a task for which a thread waits is not respawned
  have hspawn : (s.thread t).ctl.point = some p → ∀ isNested, l.act ≠ .spawn h isNested := by
    intro hp isNested hact
    simp only [Respawn, hact] at hd
    refine (hd.2 t ht).2 (.inl ?_)
    rw [hp]
    cases p <;> simp [Point.awaited] at hh
    rw [hh]
  have hkeep : ∀ x, (s.thread t).ctl.point = some p → s.fate h = .threw x →
      s'.fate h = .threw x :=
    fun x hp hx => threw_kept htracked hl he (hspawn hp) hx
  by_cases htl : t = l.thread
  swap
  · rw [he.other htl] at hc'
    obtain ⟨x, hx, hform⟩ := hs.carried t ht p cs e hc' h hh
    exact ⟨x, hkeep x (point_of_carried hc') hx, hform⟩
  subst htl
  rcases he.carried hc' with hold | ⟨c, e₀, hold, hcell⟩ | ⟨f, hold, rfl, hcell, -⟩
  · obtain ⟨x, hx, hform⟩ := hs.carried l.thread ht p cs e hold h hh
    exact ⟨x, hkeep x (point_of_carried hold) hx, hform⟩
  · obtain ⟨x, hx, hform⟩ :=
      hs.carried l.thread ht p (c :: cs) e₀ (by rw [hold]; rfl) h hh
    obtain ⟨e', he', hform'⟩ := hs.pointers.held l.thread ht c.obj (.pfunc e₀)
      (by rw [hold]; rfl)
    rw [hcell] at he'
    cases he'
    exact ⟨x, hkeep x (by rw [hold]; rfl) hx, hform'.trans hform⟩
  · obtain ⟨x, hx, hform⟩ := hs.delivered.stored f.task e hcell
    have hhf : h = f.task := by
      rcases hs.own l.thread ht f (by rw [hold]; rfl) x hx with hp | hp <;>
        simp [hp, Point.awaited] at hh
      exact hh.symm
    rw [← hhf] at hx
    exact ⟨x, hkeep x (by rw [hold]; rfl) hx, hform⟩

/-- What an access leaves in the pointer of a task is what its functor has thrown. -/
theorem stored_access (hs : s.Sound numThreads) (htracked : s.Tracked numThreads)
    (hl : l.thread ≤ numThreads) {h : Handle} {x : Thrown} {phase : Phase} {site : Site} {c : Ctl}
    {e : Exception} (haccess : Accesses s l (.task h) x phase site c)
    (hcell : (s.except (.task h)).replace x site phase = some (.live e)) :
    ∃ x', s.fate h = .threw x' ∧ e.form = x'.form := by
  have hthrown : ∃ x', s.fate h = .threw x' ∧ x.form = x'.form := by
    have hstore : ∀ f phase, (s.thread l.thread).ctl = .storing f x phase → .task h = Obj.task f.task →
        ∃ x', s.fate h = .threw x' ∧ x.form = x'.form := by
      intro f phase hc ho
      cases ho
      exact ⟨x, (htracked.storing l.thread hl f x phase hc).1, rfl⟩
    have hcatch : ∀ p (c : Catch) rest e phase, (s.thread l.thread).ctl = .catching p c rest e phase →
        x = .pfunc e → c.obj = .task h → ∃ x', s.fate h = .threw x' ∧ x.form = x'.form := by
      intro p c rest e phase hc hx ho
      have hp := hs.chained l.thread hl p (c :: rest) e (by rw [hc]; rfl) c (by simp) h ho
      subst hx
      exact hs.carried l.thread hl p (c :: rest) e (by rw [hc]; rfl) h (by rw [hp]; rfl)
    generalize ho : Obj.task h = o at haccess
    cases haccess with
    | storeDestroy f x hc => exact hstore f _ hc ho
    | storeAssign f x hc => exact hstore f _ hc ho
    | storeTrace f x hc => exact hstore f _ hc ho
    | catchDestroy p c rest e hc => exact hcatch p c rest e _ hc rfl ho.symm
    | catchAssign p c rest e hc => exact hcatch p c rest e _ hc rfl ho.symm
    | catchTrace p c rest e hc => exact hcatch p c rest e _ hc rfl ho.symm
  cases phase with
  | destroy =>
    -- the block that destroys nothing leaves the old object
    refine hs.delivered.stored h e ?_
    cases x <;> cases hold : s.except (.task h) <;> simp_all [Cell.replace]
  | assign =>
    simp only [Cell.replace, Option.some.injEq, Cell.live.injEq] at hcell
    subst hcell
    simpa using hthrown
  | trace =>
    cases hold : s.except (.task h) with
    | live e₀ =>
      obtain ⟨x', hx', hform⟩ := hs.delivered.stored h e₀ hold
      obtain ⟨e', he', hform'⟩ := Cell.replace_trace x site e₀
      rw [hold, he'] at hcell
      cases hcell
      exact ⟨x', hx', hform'.trans hform⟩
    | null => cases x <;> simp [hold, Cell.replace] at hcell
    | freed => cases x <;> simp [hold, Cell.replace] at hcell

theorem stored_effect (hs : s.Sound numThreads) (htracked : s.Tracked numThreads)
    (hl : l.thread ≤ numThreads) (he : Effect s l s') : ∀ h e, s'.except (.task h) = .live e →
      ∃ x, s'.fate h = .threw x ∧ e.form = x.form := by
  intro h e hcell'
  cases he with
  | spawn h' isNested hact hc hcell =>
    rw [spawn_of_ne_freed hcell] at hcell' ⊢
    have hne : h ≠ h' := by
      intro hh
      subst hh
      simp [State.setExcept] at hcell'
    obtain ⟨x, hx, hform⟩ := hs.delivered.stored h e (by simpa [State.setExcept, hne] using hcell')
    exact ⟨x, by simpa [hne] using hx, hform⟩
  | endTask f rest fate c hc hf hcase =>
    obtain ⟨x, hx, hform⟩ := hs.delivered.stored h e hcell'
    have hne : h ≠ f.task := by
      intro hh
      rw [hh, htracked.running l.thread hl f (by simp [hf])] at hx
      cases hx
    exact ⟨x, by simpa [State.endTask, State.setThread, hne] using hx, hform⟩
  | access o x phase site c cell hact haccess hcell =>
    by_cases ho : .task h = o
    · subst ho
      have hlive : cell = .live e := by
        simpa [State.setExcept, State.goto, State.setThread] using hcell'
      subst hlive
      exact stored_access hs htracked hl haccess hcell
    · exact hs.delivered.stored h e
        (by simpa [State.setExcept, State.goto, State.setThread, ho] using hcell')
  | _ => exact hs.delivered.stored h e hcell'

theorem not_fails (hs : s.Sound numThreads) (hd : Respawn numThreads s l)
    (hcareful : Careful numThreads s l) (hl : l.thread ≤ numThreads) : ¬Fails s l := by
  -- nobody else has freed what a thread is about to destroy
  have hfree : ∀ o, s.FreeFor numThreads l.thread o →
      (∀ x, (s.thread l.thread).ctl.replacing ≠ some (o, x, false)) → s.except o ≠ .freed := by
    intro o hfree hnot hfreed
    obtain ⟨t, ht, x, hr⟩ := hs.pointers.freed o hfreed
    by_cases htl : t = l.thread
    · exact hnot x (htl ▸ hr)
    · exact hfree t ht htl _ hr rfl
  have hdestroy : ∀ o x site, s.except o ≠ .freed → (s.except o).replace x site .destroy ≠ none := by
    intro o x site hne
    cases x <;> cases hcell : s.except o <;> simp_all [Cell.replace]
  have htrace : ∀ o x site, (s.thread l.thread).ctl.replacing = some (o, x, true) →
      (s.except o).replace x site .trace ≠ none := by
    intro o x site hr
    obtain ⟨e, he, -⟩ := hs.pointers.held l.thread hl o x hr
    obtain ⟨e', he', -⟩ := Cell.replace_trace x site e
    rw [he, he']
    simp
  intro hfails
  cases hfails with
  | spawn h isNested hact hc hcell =>
    obtain ⟨t, ht, x, hr⟩ := hs.pointers.freed _ hcell
    exact not_replacing_of_spawn hs.chained hd hact ht hr
  | notify f hact hc hcell =>
    simp only [Careful, hact, hc] at hcareful
    exact hcareful hcell
  | store f x phase hact hc hcell =>
    cases phase with
    | destroy =>
      simp only [Careful, hact, hc] at hcareful
      exact hdestroy _ x taskRun (hfree _ hcareful (by simp [hc, Ctl.replacing])) hcell
    | assign => cases hcell
    | trace => exact htrace _ x taskRun (by rw [hc]; rfl) hcell
  | caught p c rest e phase hact hc hcell =>
    cases phase with
    | destroy =>
      simp only [Careful, hact, hc] at hcareful
      exact hdestroy _ _ c.site (hfree _ hcareful (by simp [hc, Ctl.replacing])) hcell
    | assign => cases hcell
    | trace => exact htrace _ _ c.site (by rw [hc]; rfl) hcell
  | rethrow p c rest e hc hcell =>
    obtain ⟨e', he', -⟩ := hs.pointers.held l.thread hl c.obj (.pfunc e) (by rw [hc]; rfl)
    exact hcell e' he'

/-- A call of `wait` ends as its task demands. -/
theorem waitEnds_right (hs : s.Sound numThreads) (htracked : s.Tracked numThreads)
    (hcareful : Careful numThreads s l) (hl : l.thread ≤ numThreads) {h : Handle} {o : Outcome}
    (hends : WaitEnds s l h o) : Return.Right ⟨h, s.fate h, o⟩ ∧ o ≠ .undefined := by
  have hnormal : s.eventState h ≠ activeIncomplete → Return.Right ⟨h, s.fate h, .normal⟩ := by
    intro hne
    have hnot := mt (htracked.event h) hne
    cases hf : s.fate h with
    | idle => trivial
    | returned => trivial
    | pending => exact absurd (.inl hf) hnot
    | threw x => exact absurd (.inr ⟨x, hf⟩) hnot
  have hrethrown : ∀ e x, s.fate h = .threw x → e.form = x.form →
      Return.Right ⟨h, s.fate h, .rethrown e⟩ := by
    intro e x hx hform
    simp only [hx, Return.Right]
    exact hform
  cases hends with
  | check e hact hc hcell =>
    obtain ⟨x, hx, hform⟩ := hs.delivered.stored h e hcell
    exact ⟨hrethrown e x hx hform, by simp⟩
  | freed hact hc hcell =>
    simp only [Careful, hact, hc] at hcareful
    exact absurd hcell hcareful
  | event hc hne => exact ⟨hnormal hne, by simp⟩
  | wake hact hc =>
    simp only [Careful, hact, hc] at hcareful
    exact ⟨hnormal hcareful, by simp⟩
  | unwound c e e' hc hcell =>
    obtain ⟨x, hx, hform⟩ := hs.carried l.thread hl (.wait h) [c] e (by rw [hc]; rfl) h rfl
    obtain ⟨e'', he'', hform'⟩ := hs.pointers.held l.thread hl c.obj (.pfunc e) (by rw [hc]; rfl)
    rw [hcell] at he''
    cases he''
    exact ⟨hrethrown e' x hx (hform'.trans hform), by simp⟩

theorem delivered_effect (hs : s.Sound numThreads) (htracked : s.Tracked numThreads)
    (hd : Respawn numThreads s l) (hcareful : Careful numThreads s l) (hl : l.thread ≤ numThreads)
    (he : Effect s l s') : s'.Delivered numThreads where
  stored := stored_effect hs htracked hl he
  returns := by
    cases he with
    | endWait h o hends =>
      intro r hr
      rcases List.mem_cons.mp hr with rfl | hr
      · exact (waitEnds_right hs htracked hcareful hl hends).1
      · exact hs.delivered.returns r hr
    | spawn h isNested hact hc hcell =>
      rw [spawn_of_ne_freed hcell]
      exact hs.delivered.returns
    | _ => exact hs.delivered.returns
  passages := by
    cases he with
    | endBarrier g raised hends =>
      intro b hb
      rcases List.mem_cons.mp hb with rfl | hb
      · cases hends with
        | pass hc => rfl
        | unwound c e e' hc hcell =>
          exact absurd rfl (hs.outside l.thread hl (.barrier g) [c] e (by rw [hc]; rfl) g)
      · exact hs.delivered.passages b hb
    | spawn h isNested hact hc hcell =>
      rw [spawn_of_ne_freed hcell]
      exact hs.delivered.passages
    | _ => exact hs.delivered.passages
  defined := by
    intro t ht
    by_cases htl : t = l.thread
    swap
    · rw [he.other htl]
      exact hs.delivered.defined t ht
    subst htl
    cases he with
    | spawn h isNested hact hc hcell =>
      rw [spawn_of_ne_freed hcell]
      exact hs.delivered.defined _ ht
    | endWait h o hends =>
      rw [State.endWait, goto_ctl, if_neg (waitEnds_right hs htracked hcareful hl hends).2]
      simp
    | endBarrier g raised hends =>
      rw [State.endBarrier, goto_ctl]
      simp
    | endTask f rest fate c hc hf hcase =>
      simp only [State.endTask, State.setThread, Function.update_self]
      rcases hcase with ⟨-, rfl⟩ | ⟨x, -, -, rfl⟩ <;> simp
    | take h p hq hp => simp [State.take, State.setThread]
    | complete f hc hcell =>
      rw [State.complete, goto_ctl]
      cases f.point <;> simp [Ctl.resume]
    | access o x phase site c cell hact haccess hcell =>
      rw [goto_ctl]
      cases haccess <;> simp
    | goto c hgoes =>
      rw [goto_ctl]
      cases hgoes with
      | fail hfails => exact absurd hfails (not_fails hs hd hcareful hl)
      | notify => simp [Ctl.unwind]
      | _ => simp

/-- A task spawns two children and waits for the first; the worker takes child `h` there, which
throws. -/
def childRun (h : Handle) : List Label :=
  [⟨1, .spawn 0 true⟩, ⟨0, .take 0⟩, ⟨0, .spawn 1 true⟩, ⟨0, .spawn 2 true⟩, ⟨0, .wait 1⟩,
    ⟨0, .take h⟩, ⟨0, .throw (.std "E" "what")⟩] ++ List.replicate 12 ⟨0, .tick⟩

end PFunc.Exceptions
