import PFunc.Space1D
import Mathlib.Algebra.Group.Nat.Defs

/-!
# How far a space is split

`base_case_size` is public and nothing checks it. From 1 on, every split shortens both pieces,
and the pieces that remain tile the interval with lengths between half of it and all of it. With
0, an interval of one index is split into an empty one and itself.
-/

namespace PFunc.Space1D

variable {B : Size} {s : Space1D B}

/-! ### The recursion of the loop constructs -/

/-- `operator()` splits a space that can be split and is called on every subspace. These are the
spaces it invokes the function on, if it needs no more nested calls than the number given. -/
def recursion : ℕ → Space1D B → Option (List (Space1D B))
  | 0, _ => none
  | depth + 1, s =>
    if s.canSplit then (s.split.mapM (recursion depth)).map List.flatten else some [s]

/-- The calls of `operator()` come to an end. -/
def Terminates (s : Space1D B) : Prop := ∃ depth, (recursion depth s).isSome

theorem recursion_split {depth : ℕ} (h : s.canSplit) : recursion (depth + 1) s =
    (recursion depth s.left).bind fun ls => (recursion depth s.right).map (ls ++ ·) := by
  rw [recursion, if_pos h]
  simp only [split, List.mapM_cons, List.mapM_nil]
  cases recursion depth s.left with
  | none => rfl
  | some ls => cases recursion depth s.right <;> simp

theorem recursion_of_not_canSplit {depth : ℕ} (h : ¬s.canSplit) :
    recursion (depth + 1) s = some [s] := by
  rw [recursion, if_neg h]

theorem recursion_leaves (hB : 0 < B) {depth : ℕ} (h : s.length < depth) :
    recursion depth s = some (s.leaves hB) := by
  induction depth generalizing s with
  | zero => omega
  | succ depth ih =>
    by_cases hs : s.canSplit
    · obtain ⟨hl, hr⟩ := length_lt hB hs
      rw [recursion_split hs, ih (by omega), ih (by omega), leaves_split hB hs]
      rfl
    · rw [recursion_of_not_canSplit hs, leaves_of_not_canSplit hB hs]

/-- A space of one index splits into an empty one and itself. -/
theorem recursion_zero {s : Space1D 0} (h : 0 < s.length) (depth : ℕ) : recursion depth s = none := by
  induction depth generalizing s with
  | zero => rfl
  | succ depth ih =>
    have hs : s.canSplit := (canSplit_iff s).mpr h
    have hr : recursion depth s.right = none := by
      apply ih
      rw [length_right]
      omega
    rw [recursion_split hs, hr]
    cases recursion depth s.left <;> rfl

theorem length_new (b e : Size) : (new b e : Space1D B).length = (e - b).toNat := rfl

/-- The recursion on an interval ends iff the base case size is not 0 or the interval is empty. -/
theorem terminates_iff (B b e : Size) : Terminates (new b e : Space1D B) ↔ 0 < B ∨ b = e := by
  by_cases hB : 0 < B
  · refine iff_of_true ⟨(e - b).toNat + 1, ?_⟩ (.inl hB)
    rw [recursion_leaves hB (by rw [length_new]; omega)]
    rfl
  · have hzero : B = 0 := by
      simpa using hB
    subst hzero
    rw [or_iff_right hB]
    constructor
    · rintro ⟨depth, hdepth⟩
      by_contra hne
      have hlen : 0 < (new b e : Space1D 0).length := by
        rw [length_new, Nat.pos_iff_ne_zero, BitVec.toNat_sub]
        intro h0
        apply hne
        apply BitVec.eq_of_toNat_eq
        omega
      rw [recursion_zero hlen] at hdepth
      cases hdepth
    · rintro rfl
      refine ⟨1, ?_⟩
      rw [recursion_of_not_canSplit]
      · rfl
      · rw [canSplit_iff, length_new]
        simp

/-- Base case size 0 and one index. -/
theorem not_terminates_oneIndex : ¬Terminates (new 0 1 : Space1D 0) := by
  rintro ⟨depth, hdepth⟩
  rw [recursion_zero (by decide)] at hdepth
  cases hdepth

/-! ### Lengths and midpoints -/

/-- The spaces of the split tree. -/
def nodes (hB : 0 < B) (s : Space1D B) : List (Space1D B) :=
  if _h : s.canSplit then s :: (nodes hB s.left ++ nodes hB s.right) else [s]
termination_by s.length
decreasing_by
  · exact (length_lt hB _h).1
  · exact (length_lt hB _h).2

/-- The spaces follow one another without a gap from `b` to `e`. -/
def Tiles (b : Size) : List (Space1D B) → Size → Prop
  | [], e => b = e
  | x :: xs, e => x.spaceBegin = b ∧ Tiles x.spaceEnd xs e

/-- No computation on a space wraps: neither the difference of its ends nor the sum that gives its
midpoint, which lies between them. -/
structure Exact (x : Space1D B) : Prop where
  ordered : x.spaceBegin ≤ x.spaceEnd
  length : (x.spaceEnd - x.spaceBegin).toNat = x.spaceEnd.toNat - x.spaceBegin.toNat
  sum : x.spaceBegin.toNat + ((x.spaceEnd - x.spaceBegin) / 2).toNat < 2 ^ 64
  midpoint : x.splitPoint.toNat =
    x.spaceBegin.toNat + (x.spaceEnd.toNat - x.spaceBegin.toNat) / 2

theorem exact_of_le (h : s.spaceBegin ≤ s.spaceEnd) : s.Exact where
  ordered := h
  length := BitVec.toNat_sub_of_le h
  sum := by
    have hend := s.spaceEnd.isLt
    have hle : s.spaceBegin.toNat ≤ s.spaceEnd.toNat := h
    rw [BitVec.toNat_udiv, BitVec.toNat_sub_of_le h]
    change _ + _ / 2 < _
    omega
  midpoint := toNat_splitPoint h

variable (hB : 0 < B)

theorem exact_of_mem_nodes (h : s.spaceBegin ≤ s.spaceEnd) : ∀ x ∈ s.nodes hB, x.Exact := by
  induction s using nodes.induct hB with
  | case1 s hsplit ihl ihr =>
    obtain ⟨hl, hr⟩ := left_le_right h
    intro x hx
    rw [nodes, dif_pos hsplit, List.mem_cons, List.mem_append] at hx
    rcases hx with rfl | hx | hx
    · exact exact_of_le h
    · exact ihl hl x hx
    · exact ihr hr x hx
  | case2 s hsplit =>
    intro x hx
    rw [nodes, dif_neg hsplit, List.mem_singleton] at hx
    exact hx ▸ exact_of_le h

theorem tiles_append {b m e : Size} {xs ys : List (Space1D B)} (hx : Tiles b xs m)
    (hy : Tiles m ys e) : Tiles b (xs ++ ys) e := by
  induction xs generalizing b with
  | nil =>
    cases hx
    exact hy
  | cons x xs ih => exact ⟨hx.1, ih hx.2⟩

theorem tiles_leaves (s : Space1D B) : Tiles s.spaceBegin (s.leaves hB) s.spaceEnd := by
  induction s using leaves.induct hB with
  | case1 s hsplit ihl ihr =>
    rw [leaves_split hB hsplit]
    exact tiles_append ihl ihr
  | case2 s hsplit =>
    rw [leaves_of_not_canSplit hB hsplit]
    exact ⟨rfl, rfl⟩

theorem length_le_of_mem_leaves (s : Space1D B) : ∀ x ∈ s.leaves hB, x.length ≤ B.toNat := by
  induction s using leaves.induct hB with
  | case1 s hsplit ihl ihr =>
    intro x hx
    rw [leaves_split hB hsplit, List.mem_append] at hx
    exact hx.elim (ihl x) (ihr x)
  | case2 s hsplit =>
    intro x hx
    rw [leaves_of_not_canSplit hB hsplit, List.mem_singleton] at hx
    rw [hx]
    rw [canSplit_iff] at hsplit
    omega

/-- The pieces of a space that can be split are no shorter than half the base case. -/
theorem half_le_of_mem_leaves (h : (B.toNat + 1) / 2 ≤ s.length) :
    ∀ x ∈ s.leaves hB, (B.toNat + 1) / 2 ≤ x.length := by
  induction s using leaves.induct hB with
  | case1 s hsplit ihl ihr =>
    have hlt := (canSplit_iff s).mp hsplit
    have hl := length_left s
    have hr := length_right s
    intro x hx
    rw [leaves_split hB hsplit, List.mem_append] at hx
    exact hx.elim (ihl (by omega) x) (ihr (by omega) x)
  | case2 s hsplit =>
    intro x hx
    rw [leaves_of_not_canSplit hB hsplit, List.mem_singleton] at hx
    exact hx ▸ h

/-- The arithmetic of the split tree of `[b, e)`. -/
theorem split_tree_arithmetic {b e : Size} (h : b ≤ e) :
    let s : Space1D B := new b e
    (∀ x ∈ s.nodes hB, x.Exact) ∧
      Tiles b (s.leaves hB) e ∧
      (s.leaves hB).flatMap indices = List.range' b.toNat (e.toNat - b.toNat) ∧
      (∀ x ∈ s.leaves hB, x.spaceBegin ≤ x.spaceEnd ∧ x.length ≤ B.toNat) ∧
      (B.toNat < e.toNat - b.toNat → ∀ x ∈ s.leaves hB, (B.toNat + 1) / 2 ≤ x.length) := by
  refine ⟨exact_of_mem_nodes hB h, tiles_leaves hB (new b e), flatMap_indices_leaves hB h, ?_, ?_⟩
  · intro x hx
    exact ⟨le_of_mem_leaves hB h x hx, length_le_of_mem_leaves hB _ x hx⟩
  · intro hlt
    apply half_le_of_mem_leaves
    rw [length_new, BitVec.toNat_sub_of_le h]
    omega

/-- The last hundred indices of `size_t`, in base cases of 7. -/
theorem split_tree_arithmetic_lastHundred :
    let s : Space1D 7 := new (-101) (-1)
    ∀ x ∈ s.leaves (by decide), x.length ≤ 7 ∧ 4 ≤ x.length := by
  intro s x hx
  obtain ⟨-, -, -, hle, hge⟩ := split_tree_arithmetic (B := 7) (by decide)
    (b := -101) (e := -1) (by decide)
  exact ⟨(hle x hx).2, hge (by decide) x hx⟩

end PFunc.Space1D
