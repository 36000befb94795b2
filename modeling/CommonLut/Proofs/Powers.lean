import Mathlib
import CommonLut.Proofs.Exact

/-!
# Powers in exact arithmetic

Kernels with powers and logarithms are read over the real numbers like the others. What such a
kernel relies on may be less than what real powers are, so that the function for powers is a
parameter; the real powers are one choice. The instance for them is scoped: a module that reads
kernels with real powers opens `CommonLut.RealPowers`.

Main definitions: `Exact.withPower`, `Exact.PowersUndone`.
Main statement: `Exact.powersUndone_rpow`.
-/

namespace CommonLut

namespace Exact

/-! ## §1 A function for powers -/

/-- Exact arithmetic with a given function for powers. -/
@[reducible] noncomputable def withPower (pow : ℝ → ℝ → ℝ) : Analytic ℝ where
  pow := pow
  log2 := Real.logb 2.0
  log10 := Real.logb 10.0

/-- Powers of positive values are positive and undone by the reciprocal exponent. -/
structure PowersUndone (pow : ℝ → ℝ → ℝ) : Prop where
  pos : ∀ x p, 0 < x → 0 < pow x p
  root : ∀ x p, 0 < x → p ≠ 0 → pow (pow x p) (1 / p) = x

/-- The other way round: an exponent undoes its reciprocal. -/
theorem PowersUndone.power_root {pow : ℝ → ℝ → ℝ} (h : PowersUndone pow) {x p : ℝ} (hx : 0 < x)
    (hp : p ≠ 0) : pow (pow x (1 / p)) p = x := by
  have hroot := h.root x (1 / p) hx (one_div_ne_zero hp)
  rwa [one_div_one_div] at hroot

theorem powersUndone_rpow : PowersUndone Real.rpow := by
  constructor
  · intro x p hx
    exact Real.rpow_pos_of_pos hx p
  · intro x p hx hp
    show (x ^ p) ^ (1 / p) = x
    rw [← Real.rpow_mul hx.le, mul_one_div_cancel hp, Real.rpow_one]

end Exact

/-! ## §2 Real powers -/

namespace RealPowers

noncomputable scoped instance : Analytic ℝ := Exact.withPower Real.rpow

end RealPowers

end CommonLut
