import PFunc.Stages
import Mathlib.Algebra.Order.BigOperators.Group.Finset

/-!
# What a worker keeps of the tasks on its call stack

Every scheduling point holds a copy of the task suspended there, and the cache of a worker a
copy of the task on top, as long as a handle is respawned only after its last spawn has
ended. The predicates of the scheduling points are therefore about the task on top.
-/

namespace PFunc.TaskManager

open LabelledRuns Atomics Event QueueSet Finset

variable {π : Type} {cfg : Config π} {s s' : State π}

/-- A handle is respawned only after its last spawn was notified and all waits on it
have returned. -/
def Respawn (cfg : Config π) (s : State π) (l : Label π) : Prop :=
  match l.act with
  | .spawn h _ _ => s.hist.entries h .spawning = s.hist.entries h .complete ∧
      ∀ t ≤ cfg.numThreads, h ∉ (s.thread t).awaited
  | _ => True

instance (cfg : Config π) (s : State π) (l : Label π) : Decidable (Respawn cfg s l) := by
  unfold Respawn
  split <;> infer_instance

theorem count_le_occupancy {t : ℕ} (ht : t ≤ cfg.numThreads) {h : Handle} {st : Stage} :
    (s.thread t).count h st ≤ s.occupancy cfg h st := by
  have hmem : t ∈ range (cfg.numThreads + 1) := mem_range.mpr (by omega)
  have := single_le_sum (f := fun t => (s.thread t).count h st) (fun _ _ => Nat.zero_le _) hmem
  unfold State.occupancy
  omega

/-- No thread holds a task of which no spawn is under way. -/
theorem count_eq_zero (hs : s.Flow cfg) {h : Handle}
    (he : s.hist.entries h .spawning = s.hist.entries h .complete) {t : ℕ}
    (ht : t ≤ cfg.numThreads) (st : Stage) (hst : st ≠ .complete) :
    (s.thread t).count h st = 0 := by
  have hle : (s.thread t).count h st ≤ s.occupancy cfg h st := count_le_occupancy ht
  have h₁ := hs h .spawning .queued rfl
  have h₂ := hs h .queued .taken rfl
  have h₃ := hs h .taken .running rfl
  have h₄ := hs h .running .returned rfl
  have h₅ := hs h .returned .complete rfl
  cases st <;> first | omega | exact absurd rfl hst

/-- Each frame's scheduling point keeps a copy of the task in the frame below. -/
def Chain (copy : Handle → Copy π) : List (Frame π) → Prop
  | [] => True
  | f :: fs => f.point.current? = fs.head?.map (fun g => copy g.task) ∧ Chain copy fs

structure Thread.CallStack (cfg : Config π) (copy : Handle → Copy π) (t : ℕ) (th : Thread π) :
    Prop where
  chain : Chain copy th.frames
  point : ∀ p, th.ctl.point = some p → p.current? = th.frames.head?.map fun f => copy f.task
  cache : ∀ f, th.frames.head? = some f → (∀ f', th.ctl ≠ .returned f') → th.cache = copy f.task
  /-- outside its scheduling points a worker runs a task -/
  worker : t < cfg.numThreads → th.ctl.point = none → th.frames ≠ []
  main : t = cfg.numThreads →
    th.frames = [] ∧ th.ctl.point = none ∧ ∀ g myPhase, th.ctl ≠ .spinning g myPhase

theorem Chain.congr {copy copy' : Handle → Copy π} {fs : List (Frame π)} (h : Chain copy fs)
    (he : ∀ f ∈ fs, copy' f.task = copy f.task) : Chain copy' fs := by
  induction fs with
  | nil => trivial
  | cons f fs ih =>
    refine ⟨?_, ih h.2 fun f' hf' => he f' (List.mem_cons_of_mem f hf')⟩
    rw [h.1]
    cases fs with
    | nil => rfl
    | cons g gs => simp [he g (by simp)]

namespace Thread.CallStack

variable {copy copy' : Handle → Copy π} {t : ℕ} {th : Thread π}

theorem congr (h : th.CallStack cfg copy t) (he : ∀ f ∈ th.frames, copy' f.task = copy f.task) :
    th.CallStack cfg copy' t where
  chain := h.chain.congr he
  point := by
    intro p hp
    rw [h.point p hp]
    cases hf : th.frames.head? with
    | none => rfl
    | some f => simp [he f (List.mem_of_head? hf)]
  cache := by
    intro f hf hr
    rw [h.cache f hf hr, he f (List.mem_of_head? hf)]
  worker := h.worker
  main := h.main

theorem frames_ne_nil (h : th.CallStack cfg copy t) {p : Point π} (hp : th.ctl.point = some p)
    (hw : p.current? ≠ none) : th.frames ≠ [] := by
  intro hn
  have := h.point p hp
  rw [hn] at this
  exact hw this

/-- A step outside the scheduling points. -/
theorem goto (h : th.CallStack cfg copy t) {c : Ctl π} (hctl : th.ctl.point = none)
    (hc : c.point = none) (hspin : t = cfg.numThreads → ∀ g myPhase, c ≠ .spinning g myPhase) :
    ({ th with ctl := c } : Thread π).CallStack cfg copy t where
  chain := h.chain
  point := by
    intro p hp
    simp [hc] at hp
  cache := by
    intro f hf _
    refine h.cache f hf ?_
    intro f' hf'
    simp [hf', Ctl.point] at hctl
  worker := fun ht _ => h.worker ht hctl
  main := fun ht => ⟨(h.main ht).1, hc, hspin ht⟩

theorem move (h : th.CallStack cfg copy t) (ht : t ≤ cfg.numThreads) {c : Ctl π}
    (hp : PointMove th c) (htoken : c.token = th.ctl.token) :
    ({ th with ctl := c } : Thread π).CallStack cfg copy t := by
  have hcache : ∀ f, th.frames.head? = some f → (∀ f', c ≠ .returned f') →
      th.cache = copy f.task := by
    intro f hf hr
    refine h.cache f hf ?_
    intro f' hf'
    rw [hf'] at htoken
    obtain ⟨f'', hf''⟩ := Ctl.returned_of_token htoken
    exact hr f'' hf''
  cases hp with
  | same hpoint hspin =>
    refine ⟨h.chain, fun p hp => h.point p (hpoint ▸ hp), hcache,
      fun hlt hn => h.worker hlt (hpoint ▸ hn), fun hm => ⟨(h.main hm).1, ?_, hspin⟩⟩
    rw [← (h.main hm).2.1]
    exact hpoint
  | left hc p hp hw hspin =>
    have hf := h.frames_ne_nil hp hw
    refine ⟨h.chain, ?_, hcache, fun _ _ => hf, fun hm => absurd (h.main hm).1 hf⟩
    intro p' hp'
    change c.point = some p' at hp'
    rw [hc] at hp'
    cases hp'
  | spin g myPhase hctl hc =>
    have hlt : t < cfg.numThreads := by
      rcases Nat.lt_or_eq_of_le ht with hlt | heq
      · exact hlt
      · exact absurd hctl ((h.main heq).2.2 g myPhase)
    obtain ⟨f, fs, hf⟩ := List.exists_cons_of_ne_nil (h.worker hlt (by rw [hctl]; rfl))
    refine ⟨h.chain, ?_, hcache, ?_, fun hm => by omega⟩
    · intro p hp
      change c.point = some p at hp
      rw [hc] at hp
      cases hp
      simp [Point.current?, hf, h.cache f (by simp [hf]) (by simp [hctl])]
    · intro _ hn
      change c.point = none at hn
      rw [hc] at hn
      cases hn

/-- A step from one scheduling point to another. -/
theorem of_point (hchain : Chain copy th.frames) {p : Point π} (hctl : th.ctl.point = some p)
    (hp : p.current? = th.frames.head?.map fun f => copy f.task)
    (hcache : ∀ f, th.frames.head? = some f → (∀ f', th.ctl ≠ .returned f') →
      th.cache = copy f.task) (ht : t < cfg.numThreads) : th.CallStack cfg copy t where
  chain := hchain
  point := by
    intro p' hp'
    rw [hctl] at hp'
    cases hp'
    exact hp
  cache := hcache
  worker := by
    intro _ hn
    rw [hctl] at hn
    cases hn
  main := fun hm => by omega

theorem lt_of_point (h : th.CallStack cfg copy t) (ht : t ≤ cfg.numThreads) {p : Point π}
    (hp : th.ctl.point = some p) : t < cfg.numThreads := by
  rcases Nat.lt_or_eq_of_le ht with hlt | heq
  · exact hlt
  · rw [(h.main heq).2.1] at hp
    cases hp

theorem lt_of_frames (h : th.CallStack cfg copy t) (ht : t ≤ cfg.numThreads)
    (hf : th.frames ≠ []) : t < cfg.numThreads := by
  rcases Nat.lt_or_eq_of_le ht with hlt | heq
  · exact hlt
  · exact absurd (h.main heq).1 hf

theorem resumed (h : th.CallStack cfg copy t) (ht : t ≤ cfg.numThreads) {f : Frame π}
    (hc : th.ctl = .returned f) :
    ({ th with cache := (resume cfg th.cache f.point).1,
               ctl := (resume cfg th.cache f.point).2 } : Thread π).CallStack cfg copy t := by
  have hctl : th.ctl.point = some f.point := by rw [hc]; rfl
  have hlt := h.lt_of_point ht hctl
  have hpoint := h.point f.point hctl
  cases hp : f.point with
  | work =>
    rw [hp] at hpoint
    refine of_point h.chain (p := .work) rfl hpoint ?_ hlt
    intro f' hf' _
    change th.frames.head? = some f' at hf'
    rw [hf'] at hpoint
    cases hpoint
  | wait current h' =>
    rw [hp] at hpoint
    refine of_point h.chain (p := .wait current h') rfl hpoint ?_ hlt
    intro f' hf' _
    change th.frames.head? = some f' at hf'
    rw [hf'] at hpoint
    cases hpoint
    rfl
  | barrier current g myPhase =>
    rw [hp] at hpoint
    refine ⟨h.chain, by simp [resume, Ctl.point], ?_, ?_, fun hm => by omega⟩
    · intro f' hf' _
      change th.frames.head? = some f' at hf'
      rw [hf'] at hpoint
      cases hpoint
      rfl
    · intro _ _ hn
      change th.frames = [] at hn
      rw [hn] at hpoint
      cases hpoint

end Thread.CallStack

theorem callStack_effect {l : Label π} {copy : Handle → Copy π} (ht : l.thread ≤ cfg.numThreads)
    (h : (s.thread l.thread).CallStack cfg copy l.thread)
    (hstart : ∀ p x, (s.thread l.thread).ctl = .starting p x → copy x = (s.task x).toCopy)
    (he : Effect cfg s l s') : (s'.thread l.thread).CallStack cfg copy l.thread := by
  cases he with
  | stay hact => exact h
  | leave x hc =>
    rw [leave_thread, Function.update_self]
    exact h.goto (by rw [hc]; rfl) rfl (by simp)
  | spawn x attr g q hact hc =>
    simp only [State.spawn, State.enter, State.goto, State.setThread, Function.update_self]
    exact h.goto (by rw [hc]; rfl) rfl (by simp)
  | wait x c hact hc hn hcase =>
    simp only [State.goto, State.setThread, Function.update_self]
    rcases hcase with ⟨heq, rfl⟩ | ⟨hlt, rfl⟩
    · exact h.goto (by rw [hc]; rfl) rfl (by simp)
    · obtain ⟨f, fs, hf⟩ := List.exists_cons_of_ne_nil (h.worker hlt (by rw [hc]; rfl))
      have hcache := h.cache f (by simp [hf]) (by simp [hc])
      refine .of_point h.chain (p := .wait (s.thread l.thread).cache x) rfl ?_ ?_ hlt
      · simp [Point.current?, hf, hcache]
      · intro f' hf' _
        exact h.cache f' hf' (by simp [hc])
  | arrive g x c hact hc hf hcase =>
    have hlt := h.lt_of_frames ht hf
    simp only [State.goto, State.setGroup, State.setThread, Function.update_self]
    refine h.goto (by rw [hc]; rfl) ?_ (fun hm => by omega)
    rcases hcase with rfl | ⟨myPhase, rfl⟩ <;> rfl
  | ret f rest hact hc hf =>
    simp only [State.ret, State.enter, State.setThread, Function.update_self]
    have hchain := h.chain
    rw [hf] at hchain
    exact .of_point hchain.2 rfl hchain.1 (fun _ _ hr => absurd rfl (hr f))
      (h.lt_of_frames ht (by simp [hf]))
  | put x q hact hc =>
    simp only [State.put, State.goto, State.setThread, Function.update_self]
    exact h.goto (by rw [hc]; rfl) rfl (by simp)
  | goto c htoken hawaited hseen hspawn hpoint =>
    simp only [State.goto, State.setThread, Function.update_self]
    exact h.move ht hpoint htoken
  | test x pc c hpc hwait htoken hawaited hseen hpoint =>
    simp only [State.goto, State.test, State.setTask, State.setThread, Function.update_self]
    exact h.move ht hpoint htoken
  | take p n k i top x rest hc =>
    simp only [State.take, State.goto, State.setThread, Function.update_self]
    have hctl : (s.thread l.thread).ctl.point = some p := by rw [hc]; rfl
    refine .of_point h.chain (found_point x p) (h.point p hctl) ?_ (h.lt_of_point ht hctl)
    intro f hf _
    exact h.cache f hf (by simp [hc])
  | start p x hc =>
    simp only [State.start, State.enter, State.setThread, Function.update_self]
    have hctl : (s.thread l.thread).ctl.point = some p := by rw [hc]; rfl
    have hlt := h.lt_of_point ht hctl
    refine ⟨⟨h.point p hctl, h.chain⟩, by simp [Ctl.point], ?_, by simp, fun hm => by omega⟩
    intro f hf _
    cases hf
    exact (hstart p x hc).symm
  | notify f hc =>
    simp only [State.notify, State.enter, State.setTask, State.setThread, Function.update_self]
    exact h.resumed ht hc

/-- A spawn leaves the copies of the tasks on the call stacks alone. -/
theorem copy_effect (hs : s.Flow cfg) {l : Label π} (hd : Respawn cfg s l)
    (he : Effect cfg s l s') {t : ℕ} (ht : t ≤ cfg.numThreads) {h : Handle} (st : Stage)
    (hst : st ≠ .complete) (hcount : (s.thread t).count h st ≠ 0) :
    (s'.task h).toCopy = (s.task h).toCopy := by
  apply he.toCopy
  intro attr g hact
  simp only [Respawn, hact] at hd
  exact hcount (count_eq_zero hs hd.1 ht st hst)

theorem callStack_initial {t : ℕ} :
    ((initial cfg).thread t).CallStack cfg (fun h => ((initial cfg).task h).toCopy) t := by
  refine ⟨trivial, ?_, by simp [initial], ?_, ?_⟩
  · intro p hp
    by_cases ht : t = cfg.numThreads <;> simp [initial, ht, Ctl.point, getTask] at hp
    subst hp
    rfl
  · intro ht hn
    simp [initial, Nat.ne_of_lt ht, Ctl.point, getTask] at hn
  · intro ht
    simp [initial, ht, Ctl.point]

theorem callStack_reachable (hr : (system cfg).Reachable (Respawn cfg) s) :
    ∀ t ≤ cfg.numThreads, (s.thread t).CallStack cfg (fun h => (s.task h).toCopy) t := by
  refine hr.invariant' (I := fun s => ∀ t ≤ cfg.numThreads,
    (s.thread t).CallStack cfg (fun h => (s.task h).toCopy) t) (fun t _ => callStack_initial) ?_
  intro s l s' hr hs hd hstep t ht
  obtain ⟨hl, he⟩ := step_effect hstep
  have hflow := (flow_reachable hr).1
  have hframes : ∀ f ∈ (s.thread t).frames, (s'.task f.task).toCopy = (s.task f.task).toCopy := by
    intro f hf
    refine copy_effect hflow hd he ht .running (by simp) ?_
    have := List.count_pos_iff.mpr (List.mem_map_of_mem (f := fun f => f.task) hf)
    simp only [Thread.count, if_true]
    omega
  have hold : (s.thread t).CallStack cfg (fun h => (s'.task h).toCopy) t :=
    (hs t ht).congr hframes
  by_cases htl : t = l.thread
  · subst htl
    refine callStack_effect hl hold ?_ he
    intro p x hc
    exact copy_effect hflow hd he ht .taken (by simp) (by simp [Thread.count, hc, Ctl.token])
  · rw [he.other htl]
    exact hold

end PFunc.TaskManager
