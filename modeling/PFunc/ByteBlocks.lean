import Mathlib.Data.List.Basic

/-!
# Copying between blocks of bytes

A byte that was never written has no value. There is no result where a copy would leave a
block or take a byte without a value.
-/

namespace PFunc.ByteBlocks

abbrev Block := List (Option UInt8)

/-- What an allocation yields. -/
def uninitialized (n : ℕ) : Block := List.replicate n none

def initialized (bytes : List UInt8) : Block := bytes.map some

/-- The values of the first `n` bytes. -/
def take : ℕ → Block → Option (List UInt8)
  | 0, _ => some []
  | n + 1, some byte :: block => (take n block).map (byte :: ·)
  | _ + 1, _ => none

/-- Overwrite the first bytes. -/
def put : List UInt8 → Block → Option Block
  | [], block => some block
  | byte :: bytes, _ :: block => (put bytes block).map (some byte :: ·)
  | _ :: _, [] => none

/-- `memcpy` between two blocks, at an offset into each one -/
def memcpy (dest : Block) (i : ℕ) (source : Block) (j n : ℕ) : Option Block :=
  if i ≤ dest.length ∧ j ≤ source.length then
    ((take n (source.drop j)).bind fun bytes => put bytes (dest.drop i)).map (dest.take i ++ ·)
  else none

theorem take_initialized (bytes : List UInt8) (rest : Block) :
    take bytes.length (initialized bytes ++ rest) = some bytes := by
  induction bytes with
  | nil => rfl
  | cons byte bytes ih => simpa [take, initialized] using ih

theorem put_append {bytes : List UInt8} {old : Block} (h : old.length = bytes.length)
    (rest : Block) : put bytes (old ++ rest) = some (initialized bytes ++ rest) := by
  induction bytes generalizing old with
  | nil =>
    rw [List.eq_nil_of_length_eq_zero h]
    rfl
  | cons byte bytes ih =>
    cases old with
    | nil => cases h
    | cons b old =>
      have h' : old.length = bytes.length := Nat.succ.inj h
      simp [put, initialized, ih h']

/-- A copy of `bytes` over as many old ones. -/
theorem memcpy_append {bytes : List UInt8} {old : Block} (h : old.length = bytes.length)
    (before after before' after' : Block) :
    memcpy (before ++ (old ++ after)) before.length
        (before' ++ (initialized bytes ++ after')) before'.length bytes.length =
      some (before ++ (initialized bytes ++ after)) := by
  have hguard : before.length ≤ (before ++ (old ++ after)).length ∧
      before'.length ≤ (before' ++ (initialized bytes ++ after')).length := by
    simp only [List.length_append]
    omega
  rw [memcpy, if_pos hguard, List.drop_left, List.drop_left, List.take_left, take_initialized]
  change (put bytes (old ++ after)).map (before ++ ·) = _
  rw [put_append h]
  rfl

theorem initialized_append (bytes bytes' : List UInt8) :
    initialized (bytes ++ bytes') = initialized bytes ++ initialized bytes' :=
  List.map_append

@[simp] theorem length_initialized (bytes : List UInt8) :
    (initialized bytes).length = bytes.length :=
  List.length_map ..

@[simp] theorem length_uninitialized (n : ℕ) : (uninitialized n).length = n :=
  List.length_replicate

theorem uninitialized_add (n k : ℕ) :
    uninitialized (n + k) = uninitialized n ++ uninitialized k :=
  (List.replicate_append_replicate ..).symm

end PFunc.ByteBlocks
