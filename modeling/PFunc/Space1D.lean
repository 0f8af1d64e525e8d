import Mathlib.Data.List.Nodup
import Mathlib.Data.Nat.Notation

/-!
# The iteration space `space_1D`

The interval `[begin, end)` of `size_t` and its split tree.
-/

namespace PFunc

/-- `size_t` -/
abbrev Size := BitVec 64

/-- `base_case_size` is one for all the spaces of a program. -/
@[ext]
structure Space1D (baseCaseSize : Size) where
  spaceBegin : Size
  spaceEnd : Size
  splittable : Bool
  splittable_eq : splittable = decide (baseCaseSize < spaceEnd - spaceBegin)
  deriving DecidableEq

namespace Space1D

variable {B : Size}

def new (spaceBegin spaceEnd : Size) : Space1D B :=
  ⟨spaceBegin, spaceEnd, decide (B < spaceEnd - spaceBegin), rfl⟩

def canSplit (s : Space1D B) : Bool := s.splittable

def splitPoint (s : Space1D B) : Size := s.spaceBegin + (s.spaceEnd - s.spaceBegin) / 2

def left (s : Space1D B) : Space1D B := new s.spaceBegin s.splitPoint

def right (s : Space1D B) : Space1D B := new s.splitPoint s.spaceEnd

/-- The subspaces, in the order of the container. -/
def split (s : Space1D B) : List (Space1D B) := [s.left, s.right]

/-- The number of indices. -/
def length (s : Space1D B) : ℕ := (s.spaceEnd - s.spaceBegin).toNat

/-- The indices from the beginning on. -/
def indices (s : Space1D B) : List ℕ :=
  List.range' s.spaceBegin.toNat (s.spaceEnd.toNat - s.spaceBegin.toNat)

/-! ### A split halves the length -/

theorem canSplit_iff (s : Space1D B) : s.canSplit ↔ B.toNat < s.length := by
  rw [canSplit, s.splittable_eq, decide_eq_true_iff, BitVec.lt_def, length]

theorem length_left (s : Space1D B) : s.left.length = s.length / 2 := by
  have hsub : s.left.spaceEnd - s.left.spaceBegin = (s.spaceEnd - s.spaceBegin) / 2 := by
    change s.spaceBegin + (s.spaceEnd - s.spaceBegin) / 2 - s.spaceBegin = _
    rw [BitVec.add_comm, BitVec.add_sub_cancel]
  rw [length, hsub, BitVec.toNat_udiv]
  rfl

theorem length_right (s : Space1D B) : s.right.length = s.length - s.length / 2 := by
  have hsub : s.right.spaceEnd - s.right.spaceBegin =
      (s.spaceEnd - s.spaceBegin) - (s.spaceEnd - s.spaceBegin) / 2 := by
    change s.spaceEnd - (s.spaceBegin + (s.spaceEnd - s.spaceBegin) / 2) = _
    rw [← BitVec.sub_sub]
  have hle : (s.spaceEnd - s.spaceBegin) / 2 ≤ s.spaceEnd - s.spaceBegin := by
    rw [BitVec.le_def, BitVec.toNat_udiv]
    exact Nat.div_le_self _ _
  rw [length, hsub, BitVec.toNat_sub_of_le hle, BitVec.toNat_udiv]
  rfl

theorem length_lt (hB : 0 < B) {s : Space1D B} (h : s.canSplit) :
    s.left.length < s.length ∧ s.right.length < s.length := by
  have hlt := (canSplit_iff s).mp h
  have hpos : 0 < B.toNat := hB
  rw [length_left, length_right]
  omega

/-! ### The leaves of the split tree -/

/-- What is left of a space when everything that can be split has been, from left to right. -/
def leaves (hB : 0 < B) (s : Space1D B) : List (Space1D B) :=
  if _h : s.canSplit then leaves hB s.left ++ leaves hB s.right else [s]
termination_by s.length
decreasing_by
  · exact (length_lt hB _h).1
  · exact (length_lt hB _h).2

variable (hB : 0 < B) {s : Space1D B}

theorem leaves_split (h : s.canSplit) : s.leaves hB = s.left.leaves hB ++ s.right.leaves hB := by
  rw [leaves, dif_pos h]

theorem leaves_of_not_canSplit (h : ¬s.canSplit) : s.leaves hB = [s] := by
  rw [leaves, dif_neg h]

theorem leaves_ne_nil (s : Space1D B) : s.leaves hB ≠ [] := by
  induction s using leaves.induct hB with
  | case1 s h ihl _ =>
    rw [leaves_split hB h]
    exact List.append_ne_nil_of_left_ne_nil ihl _
  | case2 s h =>
    rw [leaves_of_not_canSplit hB h]
    exact List.cons_ne_nil _ _

/-- Neither sum nor difference wraps. -/
theorem toNat_splitPoint (h : s.spaceBegin ≤ s.spaceEnd) : s.splitPoint.toNat =
    s.spaceBegin.toNat + (s.spaceEnd.toNat - s.spaceBegin.toNat) / 2 := by
  have hsub := BitVec.toNat_sub_of_le h
  have hend := s.spaceEnd.isLt
  have hle : s.spaceBegin.toNat ≤ s.spaceEnd.toNat := h
  rw [splitPoint, BitVec.toNat_add, BitVec.toNat_udiv, hsub]
  change (_ + _ / 2) % _ = _
  rw [Nat.mod_eq_of_lt (by omega)]

theorem left_le_right (h : s.spaceBegin ≤ s.spaceEnd) :
    s.left.spaceBegin ≤ s.left.spaceEnd ∧ s.right.spaceBegin ≤ s.right.spaceEnd := by
  have hpoint := toNat_splitPoint h
  have hle : s.spaceBegin.toNat ≤ s.spaceEnd.toNat := h
  constructor
  · change s.spaceBegin.toNat ≤ s.splitPoint.toNat
    omega
  · change s.splitPoint.toNat ≤ s.spaceEnd.toNat
    omega

theorem indices_split (h : s.spaceBegin ≤ s.spaceEnd) :
    s.indices = s.left.indices ++ s.right.indices := by
  have hpoint := toNat_splitPoint h
  have hle : s.spaceBegin.toNat ≤ s.spaceEnd.toNat := h
  have hsum : s.spaceEnd.toNat - s.spaceBegin.toNat =
      (s.splitPoint.toNat - s.spaceBegin.toNat) + (s.spaceEnd.toNat - s.splitPoint.toNat) := by
    omega
  have hmid : s.spaceBegin.toNat + (s.splitPoint.toNat - s.spaceBegin.toNat) =
      s.splitPoint.toNat := by
    omega
  have happend := List.range'_append_1 (s := s.spaceBegin.toNat)
    (m := s.splitPoint.toNat - s.spaceBegin.toNat) (n := s.spaceEnd.toNat - s.splitPoint.toNat)
  rw [hmid] at happend
  rw [indices, hsum]
  exact happend.symm

theorem le_of_mem_leaves (h : s.spaceBegin ≤ s.spaceEnd) :
    ∀ x ∈ s.leaves hB, x.spaceBegin ≤ x.spaceEnd := by
  induction s using leaves.induct hB with
  | case1 s hsplit ihl ihr =>
    obtain ⟨hl, hr⟩ := left_le_right h
    intro x hx
    rw [leaves_split hB hsplit, List.mem_append] at hx
    exact hx.elim (ihl hl x) (ihr hr x)
  | case2 s hsplit =>
    intro x hx
    rw [leaves_of_not_canSplit hB hsplit, List.mem_singleton] at hx
    exact hx ▸ h

/-- The leaves cut the interval into consecutive pieces. -/
theorem flatMap_indices_leaves (h : s.spaceBegin ≤ s.spaceEnd) :
    (s.leaves hB).flatMap indices = s.indices := by
  induction s using leaves.induct hB with
  | case1 s hsplit ihl ihr =>
    obtain ⟨hl, hr⟩ := left_le_right h
    rw [leaves_split hB hsplit, List.flatMap_append, ihl hl, ihr hr, indices_split h]
  | case2 s hsplit =>
    rw [leaves_of_not_canSplit hB hsplit, List.flatMap_singleton]

theorem count_indices (s : Space1D B) (i : ℕ) :
    s.indices.count i = if s.spaceBegin.toNat ≤ i ∧ i < s.spaceEnd.toNat then 1 else 0 := by
  have hmem : i ∈ s.indices ↔ s.spaceBegin.toNat ≤ i ∧ i < s.spaceEnd.toNat := by
    rw [indices, List.mem_range'_1]
    omega
  rw [← if_congr hmem rfl rfl]
  exact List.Nodup.count List.nodup_range'

theorem disjoint_leaves (h : s.spaceBegin ≤ s.spaceEnd) :
    (s.leaves hB).Pairwise fun x y => x.indices.Disjoint y.indices := by
  have hnodup : ((s.leaves hB).flatMap indices).Nodup := by
    rw [flatMap_indices_leaves hB h]
    exact List.nodup_range'
  exact (List.nodup_flatMap.mp hnodup).2

end Space1D

end PFunc
