import Mathlib.Algebra.Order.Floor.Ring
import Mathlib.Topology.Order.Lattice
import Mathlib.Topology.MetricSpace.Pseudo.Defs
import Mathlib.Topology.Instances.Real.Lemmas
import CommonLut.Scalar

/-!
# Kernels in exact arithmetic

A kernel is written over `Scalar` and runs with machine floats. Read over the real numbers it is the
function that the machine approximates: no operation rounds, and every value is a finite number.
The instances are scoped; a module that reads kernels exactly opens `CommonLut.Exact`.

Main results: `Scalar.blend_eq`, `Scalar.atLeast_eq`, `Scalar.unitClamp_eq`, `Scalar.toInt_floor`.
-/

namespace CommonLut

/-! ## §1 The real numbers as scalars -/

namespace Exact

/-- Whole numbers need no bound here: the machine's clamp to sixty-four bits is a property of its
integers, not of the arithmetic. -/
noncomputable scoped instance : Scalar ℝ where
  decLt := inferInstance
  decLe := inferInstance
  ofNat n := n
  isNaN _ := false
  isFinite _ := true
  abs x := |x|
  floor x := ⌊x⌋
  round x := if 0 ≤ x then ⌊x + 1 / 2⌋ else ⌈x - 1 / 2⌉
  toInt x := if 0 ≤ x then ⌊x⌋ else ⌈x⌉

/-- Parameters and channel values are the same numbers. -/
scoped instance : Precision ℝ ℝ where
  narrow := id
  widen := id

-- Kernels write these two as decimals.
theorem decimal_zero : (0.0 : ℝ) = 0 := by norm_num

theorem decimal_one : (1.0 : ℝ) = 1 := by norm_num

end Exact

namespace Scalar

open scoped Exact

/-! ## §2 What the operations compute -/

@[simp] theorem ofNat_eq (n : ℕ) : (Scalar.ofNat n : ℝ) = n := rfl

@[simp] theorem toInt_floor (x : ℝ) : Scalar.toInt (Scalar.floor x) = ⌊x⌋ := by
  change (if 0 ≤ (⌊x⌋ : ℝ) then ⌊(⌊x⌋ : ℝ)⌋ else ⌈(⌊x⌋ : ℝ)⌉) = ⌊x⌋
  rw [Int.floor_intCast, Int.ceil_intCast, ite_self]

theorem blend_eq (x y t : ℝ) : blend x y t = x + t * (y - x) := by
  unfold blend
  ring

theorem atLeast_eq (bound x : ℝ) : atLeast bound x = max bound x := by
  unfold atLeast
  split_ifs with h
  · exact (max_eq_right h.le).symm
  · exact (max_eq_left (not_lt.mp h)).symm

theorem atMost_eq (bound x : ℝ) : atMost bound x = min bound x := by
  unfold atMost
  split_ifs with h
  · exact (min_eq_right h.le).symm
  · exact (min_eq_left (not_lt.mp h)).symm

/-- Real numbers are numbers, so that the larger one is the maximum. -/
theorem larger_eq (x y : ℝ) : larger x y = max x y := by
  rw [max_comm]
  exact atLeast_eq y x

theorem smaller_eq (x y : ℝ) : smaller x y = min x y := by
  rw [min_comm]
  exact atMost_eq y x

theorem unitClamp_eq (x : ℝ) : unitClamp x = max 0 (min 1 x) := by
  unfold unitClamp atLeast atMost
  norm_num
  split_ifs <;> grind

theorem unitClamp_mem (x : ℝ) : unitClamp x ∈ Set.Icc (0 : ℝ) 1 := by
  rw [unitClamp_eq]
  exact ⟨le_max_left 0 _, max_le zero_le_one (min_le_left 1 x)⟩

theorem unitClamp_of_mem {x : ℝ} (hx : x ∈ Set.Icc (0 : ℝ) 1) : unitClamp x = x := by
  rw [unitClamp_eq, min_eq_right hx.2, max_eq_right hx.1]

@[simp] theorem unitClamp_unitClamp (x : ℝ) : unitClamp (unitClamp x) = unitClamp x :=
  unitClamp_of_mem (unitClamp_mem x)

theorem monotone_unitClamp : Monotone (unitClamp : ℝ → ℝ) := by
  intro x y hxy
  rw [unitClamp_eq, unitClamp_eq]
  exact max_le_max_left 0 (min_le_min_left 1 hxy)

theorem continuous_unitClamp : Continuous (unitClamp : ℝ → ℝ) := by
  simp only [funext unitClamp_eq]
  fun_prop

end Scalar

end CommonLut
