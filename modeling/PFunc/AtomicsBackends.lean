import PFunc.Mutex

/-!
# The backends of the atomic operations

The operations of the x86 and of the generic backend, one call at a time on a memory of bytes.
They store the same values. They return the same values too, except that the generic
compare-and-swap returns the value it has stored where the x86 one returns the value it has
found. Additions wrap in both; a word is stored with its low byte first.
-/

namespace PFunc.Atomics

inductive Backend where
  | x86
  | generic
  deriving DecidableEq

namespace Backend

variable {w : ℕ}

/-- `pfunc_compare_and_swap_*`: the new contents and the result. -/
def compareAndSwap : Backend → BitVec w → BitVec w → BitVec w → BitVec w × BitVec w
  | .x86, location, exchg, comprnd => Atomics.compareAndSwap location exchg comprnd
  | .generic, location, exchg, comprnd =>
    if location = comprnd then (exchg, exchg) else (location, location)

/-- `pfunc_fetch_and_store_*` -/
def fetchAndStore : Backend → BitVec w → BitVec w → BitVec w × BitVec w
  | .x86, location, newVal => Atomics.fetchAndStore location newVal
  | .generic, location, newVal => (newVal, location)

/-- `pfunc_fetch_and_add_*` -/
def fetchAndAdd : Backend → BitVec w → BitVec w → BitVec w × BitVec w
  | .x86, location, addend => Atomics.fetchAndAdd location addend
  | .generic, location, addend => (location + addend, location)

end Backend

/-- The arguments of an operation on a location of `w` bits. -/
inductive Op (w : ℕ) where
  | compareAndSwap (exchg comprnd : BitVec w)
  | fetchAndStore (newVal : BitVec w)
  | fetchAndAdd (addend : BitVec w)
  deriving DecidableEq

namespace Op

variable {w : ℕ}

def run (b : Backend) (location : BitVec w) : Op w → BitVec w × BitVec w
  | .compareAndSwap exchg comprnd => b.compareAndSwap location exchg comprnd
  | .fetchAndStore newVal => b.fetchAndStore location newVal
  | .fetchAndAdd addend => b.fetchAndAdd location addend

/-- A compare-and-swap that finds its comparand stores no other value. -/
def SwapsNothing (location : BitVec w) : Op w → Prop
  | .compareAndSwap exchg comprnd => location = comprnd → exchg = comprnd
  | _ => True

instance (location : BitVec w) (op : Op w) : Decidable (op.SwapsNothing location) := by
  cases op <;> unfold SwapsNothing <;> infer_instance

theorem run_stores (location : BitVec w) (op : Op w) :
    (op.run .generic location).1 = (op.run .x86 location).1 := by
  cases op with
  | compareAndSwap exchg comprnd =>
    simp only [run, Backend.compareAndSwap, Atomics.compareAndSwap]
    split <;> rfl
  | fetchAndStore newVal => rfl
  | fetchAndAdd addend => rfl

theorem run_returns_iff (location : BitVec w) (op : Op w) :
    (op.run .generic location).2 = (op.run .x86 location).2 ↔ op.SwapsNothing location := by
  cases op with
  | compareAndSwap exchg comprnd =>
    by_cases h : location = comprnd
    · subst h
      simp [run, Backend.compareAndSwap, Atomics.compareAndSwap, SwapsNothing]
    · simp [run, Backend.compareAndSwap, Atomics.compareAndSwap, SwapsNothing, h]
  | fetchAndStore newVal => exact iff_of_true rfl trivial
  | fetchAndAdd addend => exact iff_of_true rfl trivial

end Op

/-! ### Sequences of calls -/

/-- The bytes of the memory. -/
abbrev Memory := ℕ → BitVec 8

namespace Memory

def load : (n : ℕ) → Memory → ℕ → BitVec (8 * n)
  | 0, _, _ => 0
  | n + 1, m, a => load n m (a + 1) ++ m a

def store (n : ℕ) (m : Memory) (a : ℕ) (v : BitVec (8 * n)) : Memory := fun b =>
  if a ≤ b ∧ b < a + n then v.extractLsb' (8 * (b - a)) 8 else m b

end Memory

/-- The widths of the operations, in bytes. -/
inductive Width where
  | w8
  | w16
  | w32
  deriving DecidableEq

def Width.bytes : Width → ℕ
  | .w8 => 1
  | .w16 => 2
  | .w32 => 4

structure Call where
  width : Width
  location : ℕ
  op : Op (8 * width.bytes)

/-- One call: the memory after it and the signed value it returns. -/
def Call.exec (b : Backend) (c : Call) (m : Memory) : Memory × ℤ :=
  let r := c.op.run b (m.load c.width.bytes c.location)
  (m.store c.width.bytes c.location r.1, r.2.toInt)

def exec (b : Backend) : List Call → Memory → Memory × List ℤ
  | [], m => (m, [])
  | c :: cs, m =>
    let r := c.exec b m
    let r' := exec b cs r.1
    (r'.1, r.2 :: r'.2)

/-- No compare-and-swap of the sequence finds its comparand and stores another value. -/
def SwapsNothing : List Call → Memory → Prop
  | [], _ => True
  | c :: cs, m => c.op.SwapsNothing (m.load c.width.bytes c.location) ∧
      SwapsNothing cs (c.exec .x86 m).1

theorem Call.exec_stores (c : Call) (m : Memory) : (c.exec .generic m).1 = (c.exec .x86 m).1 := by
  simp only [Call.exec, Op.run_stores]

theorem Call.exec_returns_iff (c : Call) (m : Memory) :
    (c.exec .generic m).2 = (c.exec .x86 m).2 ↔
      c.op.SwapsNothing (m.load c.width.bytes c.location) := by
  rw [← Op.run_returns_iff]
  exact BitVec.toInt_inj

theorem exec_stores (cs : List Call) (m : Memory) : (exec .generic cs m).1 = (exec .x86 cs m).1 := by
  induction cs generalizing m with
  | nil => rfl
  | cons c cs ih =>
    simp only [exec]
    rw [c.exec_stores m]
    exact ih _

theorem exec_returns_iff (cs : List Call) (m : Memory) :
    (exec .generic cs m).2 = (exec .x86 cs m).2 ↔ SwapsNothing cs m := by
  induction cs generalizing m with
  | nil => exact iff_of_true rfl trivial
  | cons c cs ih =>
    simp only [exec, SwapsNothing, List.cons.injEq]
    rw [c.exec_stores m, c.exec_returns_iff m, ih]

end PFunc.Atomics

namespace PFunc.Mutex

open Atomics

/-! ### The mutex on either backend -/

/-- The first compare-and-swap of `lock`. -/
def lockOn (b : Backend) (val : Word) : Word × Pc :=
  let r := b.compareAndSwap val locked free
  (r.1, if free ≠ r.2 then .marking else .inside)

/-- The next atomic operation of the loop of `lock`. -/
def lockLoopOn (b : Backend) (val : Word) : Pc → Option (Word × Pc)
  | .marking =>
    let r := b.compareAndSwap val lockedWithWaiters locked
    some (r.1, if free ≠ r.2 then .spinning 0 else .retrying)
  | .spinning i =>
    some (val, if i < maxRelaxations ∧ lockedWithWaiters = val then .spinning (i + 1) else .waiting)
  | .waiting => some (val, if val = lockedWithWaiters then .asleep else .retrying)
  | .retrying =>
    let r := b.compareAndSwap val lockedWithWaiters free
    some (r.1, if free ≠ r.2 then .marking else .inside)
  | _ => none

theorem lockOn_x86 (val : Word) : lockOn .x86 val = lock val := rfl

theorem lockLoopOn_x86 (val : Word) (pc : Pc) : lockLoopOn .x86 val pc = lockLoop val pc := by
  cases pc <;> rfl

/-- One operation of a thread that nobody interferes with. -/
def Alone (b : Backend) (x y : Word × Pc) : Prop := lockLoopOn b x.1 x.2 = some y

theorem spins_alone (b : Backend) {i : ℕ} (hi : i ≤ maxRelaxations) :
    Relation.ReflTransGen (Alone b) (lockedWithWaiters, .spinning 0)
      (lockedWithWaiters, .spinning i) := by
  induction i with
  | zero => exact .refl
  | succ i ih =>
    refine (ih (by omega)).tail ?_
    have hlt : i < maxRelaxations := by omega
    simp [Alone, lockLoopOn, hlt]

/-- On the generic backend a thread that locks a free mutex falls asleep in the loop. -/
theorem generic_lock_sleeps :
    Relation.ReflTransGen (Alone .generic) (lockOn .generic free) (lockedWithWaiters, .asleep) := by
  have hmark : Alone .generic (lockOn .generic free) (lockedWithWaiters, .spinning 0) := by
    unfold Alone
    decide
  have hspun : Alone .generic (lockedWithWaiters, .spinning maxRelaxations)
      (lockedWithWaiters, .waiting) := by simp [Alone, lockLoopOn]
  have hsleep : Alone .generic (lockedWithWaiters, .waiting) (lockedWithWaiters, .asleep) := by
    simp [Alone, lockLoopOn]
  exact ((((Relation.ReflTransGen.single hmark).trans (spins_alone .generic (Nat.le_refl _))).tail
    hspun).tail hsleep)

end PFunc.Mutex

namespace PFunc.Atomics

/-- The backends leave the same memory. They return the same values iff no compare-and-swap of
the sequence replaces its comparand by another value, which the first one of `lock` does on a
free mutex: only the x86 backend acquires it at once. -/
theorem backends_agree_iff (cs : List Call) (m : Memory) :
    (exec .generic cs m).1 = (exec .x86 cs m).1 ∧
      ((exec .generic cs m).2 = (exec .x86 cs m).2 ↔ SwapsNothing cs m) ∧
      ∀ b, (Mutex.lockOn b Mutex.free).2 = .inside ↔ b = .x86 := by
  refine ⟨exec_stores cs m, exec_returns_iff cs m, ?_⟩
  intro b
  cases b <;> decide

/-- The compare-and-swap of `lock` on a free mutex at address 0. -/
def lockCalls : List Call := [⟨.w32, 0, .compareAndSwap Mutex.locked Mutex.free⟩]

theorem backends_differ_lockCalls :
    (exec .x86 lockCalls fun _ => 0).2 = [0] ∧ (exec .generic lockCalls fun _ => 0).2 = [1] ∧
      (Mutex.lockOn .x86 Mutex.free).2 = .inside ∧
      (Mutex.lockOn .generic Mutex.free).2 = .marking := by
  decide

end PFunc.Atomics
