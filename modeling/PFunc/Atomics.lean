import Mathlib.Data.BitVec

/-! # The x86 atomic operations, as sequential functions of one memory word

Each returns the new contents of the word and the value handed to the caller. -/
namespace PFunc.Atomics

variable {w : ℕ}

abbrev Word := BitVec 32

/-- `lock cmpxchg`: the accumulator, and so the result, is the old contents. -/
def compareAndSwap (location exchg comprnd : BitVec w) : BitVec w × BitVec w :=
  if location = comprnd then (exchg, location) else (location, location)

/-- `lock xchg`. -/
def fetchAndStore (location newVal : BitVec w) : BitVec w × BitVec w := (newVal, location)

/-- `lock xadd`. -/
def fetchAndAdd (location addend : BitVec w) : BitVec w × BitVec w := (location + addend, location)

@[simp] theorem compareAndSwap_result (location exchg comprnd : BitVec w) :
    (compareAndSwap location exchg comprnd).2 = location := by
  unfold compareAndSwap
  split <;> rfl

theorem toNat_decrement {location : Word} (h : 0 < location.toNat) :
    (fetchAndAdd location (-1)).1.toNat = location.toNat - 1 := by
  simp only [fetchAndAdd]
  bv_omega

theorem increment_ofNat (n : ℕ) :
    (fetchAndAdd (.ofNat 32 n) 1).1 = BitVec.ofNat 32 (n + 1) := by
  simp only [fetchAndAdd]
  bv_omega

theorem decrement_ofNat (n : ℕ) :
    (fetchAndAdd (.ofNat 32 (n + 1)) (-1)).1 = BitVec.ofNat 32 n := by
  simp only [fetchAndAdd]
  bv_omega

theorem decrement_ne (location : Word) : (fetchAndAdd location (-1)).1 ≠ location := by
  simp only [fetchAndAdd]
  bv_omega

theorem ofNat_succ_ne (n : ℕ) : BitVec.ofNat 32 (n + 1) ≠ BitVec.ofNat 32 n := by
  bv_omega

end PFunc.Atomics
