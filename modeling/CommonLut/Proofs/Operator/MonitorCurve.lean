import Mathlib
import CommonLut.Operator.GammaCurve
import CommonLut.Proofs.Powers

/-!
# Gamma curves undone

With real powers, the power law and its root undo each other where neither cuts off a sign. The
monitor curve goes on as a straight line below its break point, so that it needs no such limit: the
line meets the power at the break point, the reverse curve breaks at the value that the forward one
has there, and the slopes of the two lines are reciprocal, although each is computed by a formula of
its own.

Main definitions: `GammaParams.Undoes`, `GammaParams.breakPoint`, `GammaParams.breakLight`,
`GammaParams.toe`, `GammaParams.toeReverse`.
Main statements: `GammaParams.toe_mul_toeReverse`, `GammaParams.undoes_power`,
`GammaParams.undoes_monitor`, `GammaParams.curves_undone`.
-/

namespace CommonLut.GammaParams

open Set Exact
open scoped RealPowers

/-- On a set of values a continuous and increasing curve is a bijection, and a reverse curve is its
inverse. -/
structure Undoes (S : Set ℝ) (reverse forward : ℝ → ℝ) : Prop where
  continuous : ContinuousOn forward S
  increasing : StrictMonoOn forward S
  bijective : BijOn forward S S
  reverse_forward : ∀ x ∈ S, reverse (forward x) = x
  forward_reverse : ∀ y ∈ S, forward (reverse y) = y

/-! ## §1 The power law -/

theorem power_eq (g : ℝ) {x : ℝ} (hx : 0 ≤ x) : power g x = x ^ g := by
  rw [power, Scalar.atLeast_eq, decimal_zero, max_eq_right hx]
  rfl

theorem root_eq (g : ℝ) {x : ℝ} (hx : 0 ≤ x) : root g x = x ^ (1 / g) := by
  rw [root, Scalar.atLeast_eq, decimal_zero, decimal_one, max_eq_right hx]
  rfl

theorem rpow_root {g x : ℝ} (hg : g ≠ 0) (hx : 0 ≤ x) : (x ^ g) ^ (1 / g) = x := by
  rw [one_div, Real.rpow_rpow_inv hx hg]

theorem root_rpow {g x : ℝ} (hg : g ≠ 0) (hx : 0 ≤ x) : (x ^ (1 / g)) ^ g = x := by
  rw [one_div, Real.rpow_inv_rpow hx hg]

theorem undoes_power {g : ℝ} (hg : 0 < g) : Undoes (Ici 0) (root g) (power g) := by
  have hpower : EqOn (power g) (fun x => x ^ g) (Ici 0) := fun x hx => power_eq g hx
  have hback : ∀ x ∈ Ici (0 : ℝ), root g (power g x) = x := by
    intro x hx
    rw [power_eq g hx, root_eq g (Real.rpow_nonneg hx g), rpow_root hg.ne' hx]
  have hforth : ∀ y ∈ Ici (0 : ℝ), power g (root g y) = y := by
    intro y hy
    rw [root_eq g hy, power_eq g (Real.rpow_nonneg hy _), root_rpow hg.ne' hy]
  constructor
  · exact (Real.continuous_rpow_const hg.le).continuousOn.congr hpower
  · exact (Real.strictMonoOn_rpow_Ici_of_exponent_pos hg).congr hpower.symm
  · refine InvOn.bijOn ⟨hback, hforth⟩ ?_ ?_
    · intro x hx
      rw [power_eq g hx]
      exact Real.rpow_nonneg hx g
    · intro y hy
      rw [root_eq g hy]
      exact Real.rpow_nonneg hy _
  · exact hback
  · exact hforth

/-! ## §2 The break -/

section

variable (g offset : ℝ)

/-- Where the monitor curve breaks, as an encoded value. -/
noncomputable def breakPoint : ℝ := offset / (g - 1)

/-- What the power law is applied to at the break point. -/
noncomputable def breakBase : ℝ := offset * g / ((g - 1) * (1 + offset))

/-- Where the monitor curve breaks, as light. -/
noncomputable def breakLight : ℝ := breakBase g offset ^ g

/-- The slope of the straight part. -/
noncomputable def toe : ℝ := (g - 1) / offset * breakLight g offset

/-- The slope of the straight part of the reverse curve. -/
noncomputable def toeReverse : ℝ := ((g - 1) / offset) ^ (g - 1) * ((1 + offset) / g) ^ g

theorem monitor_eq (x : ℝ) :
    monitor g offset x =
      if breakPoint g offset ≤ x then ((x + offset) / (1 + offset)) ^ g
      else x * toe g offset := by
  rw [monitor, decimal_one]
  rfl

theorem monitorReverse_eq (y : ℝ) :
    monitorReverse g offset y =
      if breakLight g offset ≤ y then (1 + offset) * y ^ (1 / g) - offset
      else y * toeReverse g offset := by
  rw [monitorReverse, decimal_one]
  rfl

end

section

variable {g offset : ℝ} (hg : 1 < g) (ho : 0 < offset)

include hg ho

theorem breakBase_pos : 0 < breakBase g offset := by
  have hrise : 0 < g - 1 := sub_pos.mpr hg
  unfold breakBase
  positivity

theorem breakLight_pos : 0 < breakLight g offset :=
  Real.rpow_pos_of_pos (breakBase_pos hg ho) g

theorem toe_pos : 0 < toe g offset :=
  mul_pos (div_pos (sub_pos.mpr hg) ho) (breakLight_pos hg ho)

/-- The power law meets the line: at the break point it is applied to the break base. -/
theorem shifted_breakPoint : (breakPoint g offset + offset) / (1 + offset) = breakBase g offset := by
  have hrise : g - 1 ≠ 0 := (sub_pos.mpr hg).ne'
  unfold breakPoint breakBase
  field_simp
  ring

theorem breakPoint_mul_toe : breakPoint g offset * toe g offset = breakLight g offset := by
  have hrise : g - 1 ≠ 0 := (sub_pos.mpr hg).ne'
  unfold breakPoint toe
  field_simp

/-- The slopes of the straight parts are reciprocal. -/
theorem toe_mul_toeReverse : toe g offset * toeReverse g offset = 1 := by
  have hrise : 0 < g - 1 := sub_pos.mpr hg
  have hratio : 0 < (g - 1) / offset := div_pos hrise ho
  have hscale : 0 < (1 + offset) / g := by positivity
  -- One factor of the forward slope completes the exponent of the reverse one.
  have hpower : (g - 1) / offset * ((g - 1) / offset) ^ (g - 1) = ((g - 1) / offset) ^ g := by
    rw [← Real.rpow_one_add' hratio.le (by linarith)]
    ring_nf
  have hbase : breakBase g offset * ((g - 1) / offset * ((1 + offset) / g)) = 1 := by
    unfold breakBase
    field_simp
  calc toe g offset * toeReverse g offset
      = breakBase g offset ^ g * ((g - 1) / offset * ((g - 1) / offset) ^ (g - 1) *
          ((1 + offset) / g) ^ g) := by
        unfold toe toeReverse breakLight
        ring
    _ = breakBase g offset ^ g * ((g - 1) / offset * ((1 + offset) / g)) ^ g := by
        rw [hpower, Real.mul_rpow hratio.le hscale.le]
    _ = (breakBase g offset * ((g - 1) / offset * ((1 + offset) / g))) ^ g :=
        (Real.mul_rpow (breakBase_pos hg ho).le (mul_pos hratio hscale).le).symm
    _ = 1 := by rw [hbase, Real.one_rpow]

/-! ## §3 The monitor curve -/

/-- From the break point on, the power law is applied to positive values. -/
theorem breakBase_le {x : ℝ} (hx : breakPoint g offset ≤ x) :
    breakBase g offset ≤ (x + offset) / (1 + offset) := by
  rw [← shifted_breakPoint hg ho]
  gcongr

theorem monitor_of_le {x : ℝ} (hx : x ≤ breakPoint g offset) :
    monitor g offset x = x * toe g offset := by
  rcases hx.lt_or_eq with hlt | rfl
  · rw [monitor_eq, if_neg hlt.not_ge]
  -- At the break point itself the power law is used, and it has the value of the line.
  · rw [monitor_eq, if_pos le_rfl, shifted_breakPoint hg ho, breakPoint_mul_toe hg ho, breakLight]

theorem monitor_breakPoint : monitor g offset (breakPoint g offset) = breakLight g offset := by
  rw [monitor_of_le hg ho le_rfl, breakPoint_mul_toe hg ho]

theorem continuous_monitor : Continuous (monitor g offset) := by
  have hpower : Continuous fun x : ℝ => ((x + offset) / (1 + offset)) ^ g :=
    (Real.continuous_rpow_const (by linarith)).comp
      ((continuous_id.add continuous_const).div_const _)
  rw [funext (monitor_eq g offset)]
  apply Continuous.if_le hpower (continuous_id.mul continuous_const) continuous_const continuous_id
  rintro x rfl
  rw [shifted_breakPoint hg ho]
  exact (breakPoint_mul_toe hg ho).symm

theorem strictMono_monitor : StrictMono (monitor g offset) := by
  apply StrictMonoOn.Iic_union_Ici (a := breakPoint g offset)
  · intro x hx y hy hxy
    rw [monitor_of_le hg ho hx, monitor_of_le hg ho hy]
    exact mul_lt_mul_of_pos_right hxy (toe_pos hg ho)
  · intro x hx y hy hxy
    rw [mem_Ici] at hx hy
    have hbase := (breakBase_pos hg ho).trans_le (breakBase_le hg ho hx)
    rw [monitor_eq, monitor_eq, if_pos hx, if_pos hy]
    apply Real.rpow_lt_rpow hbase.le _ (by linarith)
    gcongr

theorem monitorReverse_monitor (x : ℝ) : monitorReverse g offset (monitor g offset x) = x := by
  have hmono := strictMono_monitor hg ho
  rcases le_or_gt (breakPoint g offset) x with hx | hx
  · have hlight : breakLight g offset ≤ monitor g offset x := by
      rw [← monitor_breakPoint hg ho]
      exact hmono.monotone hx
    have hbase := (breakBase_pos hg ho).trans_le (breakBase_le hg ho hx)
    rw [monitorReverse_eq, if_pos hlight, monitor_eq, if_pos hx,
      rpow_root (by linarith) hbase.le]
    field_simp
    ring
  · have hlight : monitor g offset x < breakLight g offset := by
      rw [← monitor_breakPoint hg ho]
      exact hmono hx
    rw [monitorReverse_eq, if_neg hlight.not_ge, monitor_of_le hg ho hx.le, mul_assoc,
      toe_mul_toeReverse hg ho, mul_one]

theorem monitor_monitorReverse (y : ℝ) : monitor g offset (monitorReverse g offset y) = y := by
  have hreciprocal := toe_mul_toeReverse hg ho
  have hlight := breakLight_pos hg ho
  -- The power above the break and the line below it each lead back to their own side.
  rcases le_or_gt (breakLight g offset) y with hy | hy
  · have hroot : breakBase g offset ≤ y ^ (1 / g) := by
      rw [← rpow_root (g := g) (by linarith) (breakBase_pos hg ho).le]
      exact Real.rpow_le_rpow hlight.le hy (by positivity)
    have hpoint : breakPoint g offset ≤ (1 + offset) * y ^ (1 / g) - offset := by
      have hshifted := shifted_breakPoint hg ho
      rw [div_eq_iff (by positivity)] at hshifted
      have hscaled := mul_le_mul_of_nonneg_right hroot (by positivity : 0 ≤ 1 + offset)
      linarith
    rw [monitorReverse_eq, if_pos hy, monitor_eq, if_pos hpoint, sub_add_cancel,
      mul_div_cancel_left₀ _ (by positivity), root_rpow (by linarith) (hlight.trans_le hy).le]
  · have hreverse : 0 < toeReverse g offset :=
      pos_of_mul_pos_right (hreciprocal ▸ one_pos) (toe_pos hg ho).le
    have hpoint : y * toeReverse g offset < breakPoint g offset := by
      calc y * toeReverse g offset
          < breakLight g offset * toeReverse g offset := mul_lt_mul_of_pos_right hy hreverse
        _ = breakPoint g offset := by
          rw [← breakPoint_mul_toe hg ho, mul_assoc, hreciprocal, mul_one]
    rw [monitorReverse_eq, if_neg hy.not_ge, monitor_of_le hg ho hpoint.le, mul_assoc,
      mul_comm (toeReverse g offset), hreciprocal, mul_one]

theorem undoes_monitor : Undoes univ (monitorReverse g offset) (monitor g offset) := by
  have hback := monitorReverse_monitor hg ho
  have hforth := monitor_monitorReverse hg ho
  constructor
  · exact (continuous_monitor hg ho).continuousOn
  · exact (strictMono_monitor hg ho).strictMonoOn univ
  · rw [bijOn_univ]
    exact ⟨Function.LeftInverse.injective hback, Function.RightInverse.surjective hforth⟩
  · exact fun x _ => hback x
  · exact fun y _ => hforth y

end

/-! ## §4 The curves of a channel -/

theorem hasToe_iff (g offset : ℝ) : hasToe g offset = true ↔ 1 < g ∧ 0 < offset := by
  simp [hasToe, decimal_zero, decimal_one]

theorem eval_monitor (p : GammaParams ℝ) :
    p.eval .moncurveFwd = (if hasToe p.gamma (p.offset.getD 0) then
      monitor p.gamma (p.offset.getD 0) else power p.gamma) ∧
    p.eval .moncurveRev = (if hasToe p.gamma (p.offset.getD 0) then
      monitorReverse p.gamma (p.offset.getD 0) else root p.gamma) := by
  constructor
  · funext x
    simp only [eval, decimal_zero]
    split_ifs <;> rfl
  · funext x
    simp only [eval, decimal_zero]
    split_ifs <;> rfl

/-- With real powers, on every channel that has parameters: the monitor curve is a continuous and
increasing bijection of all numbers if its exponent is above one and its offset positive, and one of
the numbers that are not negative otherwise, as the power law is; the reverse styles are the inverse
curves. -/
theorem curves_undone {params : List (GammaParams ℝ)} {channel : ℕ} {p : GammaParams ℝ}
    (hp : Channel.select? GammaParams.channel params channel = some p) (hgamma : 0 < p.gamma) :
    let curve (style : GammaStyle) : ℝ → ℝ := GammaCurve.eval { style, params } channel
    (1 < p.gamma → 0 < p.offset.getD 0 →
      Undoes univ (curve .moncurveRev) (curve .moncurveFwd)) ∧
    (p.gamma ≤ 1 ∨ p.offset.getD 0 ≤ 0 →
      Undoes (Ici 0) (curve .moncurveRev) (curve .moncurveFwd)) ∧
    Undoes (Ici 0) (curve .basicRev) (curve .basicFwd) := by
  intro curve
  have hcurve : ∀ style, curve style = p.eval style := by
    intro style
    funext x
    simp only [curve, GammaCurve.eval, hp]
  obtain ⟨hforward, hreverse⟩ := eval_monitor p
  rw [hcurve, hcurve, hcurve, hcurve, hforward, hreverse]
  refine ⟨?_, ?_, undoes_power hgamma⟩
  · intro hg ho
    have htoe : hasToe p.gamma (p.offset.getD 0) = true := (hasToe_iff _ _).mpr ⟨hg, ho⟩
    rw [if_pos htoe, if_pos htoe]
    exact undoes_monitor hg ho
  · intro hplain
    have htoe : ¬ hasToe p.gamma (p.offset.getD 0) = true := by
      rw [hasToe_iff, not_and_or, not_lt, not_lt]
      exact hplain
    rw [if_neg htoe, if_neg htoe]
    exact undoes_power hgamma

/-- The parameters of a display for the green channel. -/
noncomputable def displayGreen : GammaParams ℝ where
  gamma := 2.4
  offset := some 0.055
  channel := some .green

/-- An exponent below one for the channels without parameters of their own. -/
noncomputable def squareRoot : GammaParams ℝ where
  gamma := 0.5

-- The monitor curve of the green channel goes through negative values, the others do not.
theorem curves_undone_display :
    let params := [displayGreen, squareRoot]
    let curve (style : GammaStyle) : ℕ → ℝ → ℝ := GammaCurve.eval { style, params }
    Channel.select? GammaParams.channel params 1 = some displayGreen ∧
    Channel.select? GammaParams.channel params 0 = some squareRoot ∧
    0 < displayGreen.gamma ∧ 0 < squareRoot.gamma ∧
    curve .moncurveRev 1 (curve .moncurveFwd 1 (-1)) = -1 ∧
    curve .moncurveFwd 1 (curve .moncurveRev 1 (-1)) = -1 ∧
    curve .moncurveRev 0 (curve .moncurveFwd 0 4) = 4 ∧
    curve .basicRev 0 (curve .basicFwd 0 4) = 4 := by
  intro params curve
  have hgreen : Channel.select? GammaParams.channel params 1 = some displayGreen := rfl
  have hred : Channel.select? GammaParams.channel params 0 = some squareRoot := rfl
  have hgamma : 0 < displayGreen.gamma := by norm_num [displayGreen]
  have hgamma' : 0 < squareRoot.gamma := by norm_num [squareRoot]
  obtain ⟨hmonitor, -, -⟩ := curves_undone hgreen hgamma
  obtain ⟨-, hplain, hbasic⟩ := curves_undone hred hgamma'
  have hundoes := hmonitor (by norm_num [displayGreen]) (by norm_num [displayGreen])
  have hundoes' := hplain (.inl (by norm_num [squareRoot]))
  refine ⟨hgreen, hred, hgamma, hgamma', hundoes.reverse_forward _ (mem_univ _),
    hundoes.forward_reverse _ (mem_univ _), ?_, ?_⟩
  · exact hundoes'.reverse_forward 4 (by norm_num)
  · exact hbasic.reverse_forward 4 (by norm_num)

end CommonLut.GammaParams
