import Mathlib
import CommonLut.Operator.ExposureContrast
import CommonLut.Operator.LogCurve
import CommonLut.Proofs.Operator.MonitorCurve

/-!
# Exposure, contrast and film densities undone

With real powers and logarithms, every reverse style undoes its forward style. A contrast is a
power law between two scalings, the one by the gain and the pivot and the one back by the pivot, and
so is undone part by part; at a contrast of one the power law is left out, which makes no difference
where values are not negative, and lets the others through. On logarithmic values a contrast is a
straight line.

A film density is a straight line, an exponential and another straight line. The way back takes no
logarithm below its floor, so that it gives the code of the floor for every lower one.

Main definitions: `ExposureContrast.curve`, `DensityParams.exposure`, `DensityParams.code`.
Main statements: `ExposureContrast.undoes_powerAbout`, `DensityParams.toCode_toLinear`,
`ExposureContrast.reverse_styles_undo`.
-/

namespace CommonLut

open Set Exact
open scoped RealPowers

/-! ## §1 Curves with inverses -/

namespace GammaParams.Undoes

variable {S : Set ℝ} {reverse forward reverse' forward' : ℝ → ℝ}

/-- An increasing curve that stays in a set of values, with an inverse that stays there. -/
theorem of_inverse (hcontinuous : ContinuousOn forward S) (hincreasing : StrictMonoOn forward S)
    (hforward : MapsTo forward S S) (hreverse : MapsTo reverse S S)
    (hback : ∀ x ∈ S, reverse (forward x) = x) (hforth : ∀ y ∈ S, forward (reverse y) = y) :
    Undoes S reverse forward where
  continuous := hcontinuous
  increasing := hincreasing
  bijective := InvOn.bijOn ⟨hback, hforth⟩ hforward hreverse
  reverse_forward := hback
  forward_reverse := hforth

theorem mapsTo_reverse (h : Undoes S reverse forward) : MapsTo reverse S S := by
  intro y hy
  -- Whatever is in the set is the value of something in it, which the reverse curve finds again.
  obtain ⟨x, hx, rfl⟩ := h.bijective.surjOn hy
  rwa [h.reverse_forward x hx]

/-- Two curves after each other are undone in the opposite order. -/
theorem comp (h : Undoes S reverse forward) (h' : Undoes S reverse' forward') :
    Undoes S (reverse ∘ reverse') (forward' ∘ forward) := by
  apply of_inverse
  · exact h'.continuous.comp h.continuous h.bijective.mapsTo
  · intro x hx y hy hxy
    apply h'.increasing (h.bijective.mapsTo hx) (h.bijective.mapsTo hy)
    exact h.increasing hx hy hxy
  · exact h'.bijective.mapsTo.comp h.bijective.mapsTo
  · exact h.mapsTo_reverse.comp h'.mapsTo_reverse
  · intro x hx
    simp only [Function.comp_apply]
    rw [h'.reverse_forward _ (h.bijective.mapsTo hx), h.reverse_forward x hx]
  · intro y hy
    simp only [Function.comp_apply]
    rw [h.forward_reverse _ (h'.mapsTo_reverse hy), h'.forward_reverse y hy]

/-- A rising straight line is undone by the line of the reciprocal slope. -/
theorem line {a : ℝ} (ha : 0 < a) (b : ℝ) (hreverse : ∀ y, reverse y = (y - b) / a)
    (hforward : ∀ x, forward x = x * a + b) : Undoes univ reverse forward := by
  rw [funext hforward, funext hreverse]
  apply of_inverse
  · fun_prop
  · intro x _ y _ hxy
    dsimp only
    gcongr
  · exact mapsTo_univ _ _
  · exact mapsTo_univ _ _
  · intro x _
    field_simp
    ring
  · intro y _
    field_simp
    ring

/-- Where no value is negative, a positive factor is undone by the division. -/
theorem factor {k : ℝ} (hk : 0 < k) : Undoes (Ici 0) (· / k) (· * k) := by
  apply of_inverse
  · fun_prop
  · intro x _ y _ hxy
    dsimp only
    gcongr
  · intro x hx
    exact mul_nonneg hx hk.le
  · intro y hy
    exact div_nonneg hy hk.le
  · intro x _
    field_simp
  · intro y _
    field_simp

end GammaParams.Undoes

open GammaParams (Undoes)

/-! ## §2 Contrast about a pivot -/

namespace ExposureContrast

section

variable {gain pivot contrast : ℝ}

theorem powerAbout_eq (x : ℝ) : powerAbout gain pivot contrast x =
    if contrast = 1 then x * gain
    else GammaParams.power contrast (x * gain / pivot) * pivot := by
  simp only [powerAbout, beq_iff_eq, decimal_one]
  rfl

theorem powerAboutReverse_eq (y : ℝ) : powerAboutReverse gain pivot contrast y =
    if contrast = 1 then y / gain
    else GammaParams.root contrast (y / pivot) * pivot / gain := by
  simp only [powerAboutReverse, GammaParams.root, beq_iff_eq, decimal_one]

/-- On values that are not negative the contrast is a power law between scalings, whatever it is. -/
theorem undoes_powerAbout (hgain : 0 < gain) (hpivot : 0 < pivot) (hcontrast : 0 < contrast) :
    Undoes (Ici 0) (powerAboutReverse gain pivot contrast) (powerAbout gain pivot contrast) := by
  rw [funext powerAboutReverse_eq, funext powerAbout_eq]
  rcases eq_or_ne contrast 1 with hone | hother
  · simp only [if_pos hone]
    exact Undoes.factor hgain
  · simp only [if_neg hother]
    -- Gain and pivot in, the power, and the pivot out again.
    have hscaled : Undoes (Ici 0) (· / (gain / pivot)) (· * (gain / pivot)) :=
      Undoes.factor (div_pos hgain hpivot)
    have hpowered := hscaled.comp (GammaParams.undoes_power hcontrast)
    have hwhole := hpowered.comp (Undoes.factor hpivot)
    convert hwhole using 1
    · funext y
      simp only [Function.comp_apply]
      field_simp
    · funext x
      simp only [Function.comp_apply, mul_div_assoc]

/-- Without a contrast only the gain is left, and negative values go through it. -/
theorem undoes_powerAbout_one (hgain : 0 < gain) :
    Undoes univ (powerAboutReverse gain pivot 1) (powerAbout gain pivot 1) := by
  apply Undoes.line hgain 0
  · intro y
    rw [powerAboutReverse_eq, if_pos rfl, sub_zero]
  · intro x
    rw [powerAbout_eq, if_pos rfl, add_zero]

end

/-! ## §3 The styles of exposure and contrast -/

variable (e : ExposureContrast ℝ)

/-- The parameters of a node in some style. -/
noncomputable def curve (style : ExposureStyle) : ℝ → ℝ := eval { e with style }

theorem contrastUsed_pos : 0 < e.contrastUsed := by
  rw [contrastUsed, Scalar.atLeast_eq]
  apply lt_max_of_lt_left
  norm_num [leastContrast]

theorem pivotUsed_pos : 0 < e.pivotUsed := by
  rw [pivotUsed, Scalar.atLeast_eq]
  apply lt_max_of_lt_left
  norm_num [leastPivot]

theorem gain_pos : 0 < e.gain := by
  apply Real.rpow_pos_of_pos
  norm_num

theorem undoes_linear : Undoes (Ici 0) (e.curve .linearRev) (e.curve .linear) :=
  undoes_powerAbout e.gain_pos e.pivotUsed_pos e.contrastUsed_pos

/-- Video is the same curve with gain and pivot encoded. -/
theorem undoes_video : Undoes (Ici 0) (e.curve .videoRev) (e.curve .video) := by
  apply undoes_powerAbout
  · exact Real.rpow_pos_of_pos e.gain_pos _
  · exact Real.rpow_pos_of_pos e.pivotUsed_pos _
  · exact e.contrastUsed_pos

/-- At a contrast of one the power law is left out, on linear values and on video. -/
theorem undoes_withoutContrast (hone : e.contrastUsed = 1) :
    Undoes univ (e.curve .linearRev) (e.curve .linear) ∧
      Undoes univ (e.curve .videoRev) (e.curve .video) := by
  have hencoded : 0 < Analytic.pow e.gain videoExponent := Real.rpow_pos_of_pos e.gain_pos _
  constructor
  · show Undoes univ (powerAboutReverse e.gain e.pivotUsed e.contrastUsed)
      (powerAbout e.gain e.pivotUsed e.contrastUsed)
    rw [hone]
    exact undoes_powerAbout_one e.gain_pos
  · show Undoes univ
      (powerAboutReverse _ (Analytic.pow e.pivotUsed videoExponent) e.contrastUsed)
      (powerAbout (Analytic.pow e.gain videoExponent) _ e.contrastUsed)
    rw [hone]
    exact undoes_powerAbout_one hencoded

/-- On logarithmic values the contrast is the slope of a line through the pivot. -/
theorem undoes_log : Undoes univ (e.curve .logRev) (e.curve .log) := by
  have hcontrast := e.contrastUsed_pos
  apply Undoes.line hcontrast
    ((e.exposure * logStep - e.logPivot) * e.contrastUsed + e.logPivot)
  · intro y
    show (y - e.logPivot) / e.contrastUsed + e.logPivot - e.exposure * logStep = _
    field_simp
    ring
  · intro x
    exact add_assoc _ _ _

end ExposureContrast

/-! ## §4 Film densities -/

namespace DensityParams

variable (p : DensityParams ℝ)

/-- What a normalized code value stands for, relative to reference white. -/
noncomputable def exposure (x : ℝ) : ℝ := 10 ^ ((1023 * x - p.whiteValue) * 0.002 / p.gammaValue)

/-- The normalized code value of an exposure. -/
noncomputable def code (t : ℝ) : ℝ :=
  (p.whiteValue + Real.logb 10 t * p.gammaValue / 0.002) / 1023

theorem exposure_pos (x : ℝ) : 0 < p.exposure x := by
  apply Real.rpow_pos_of_pos
  norm_num

theorem logFloor_eq : (logFloor : ℝ) = 1 / 2 ^ 126 := by
  rw [logFloor, Scalar.ofNat_eq, Nat.one_shiftLeft, decimal_one]
  norm_num

theorem logFloor_pos : (0 : ℝ) < logFloor := by
  rw [logFloor_eq]
  positivity

theorem toLinear_eq (x : ℝ) : p.toLinear x =
    (p.exposure x - p.blackExposure) / (1 - p.blackExposure) *
      (p.highlightValue - p.shadowValue) + p.shadowValue := by
  have hten : (10.0 : ℝ) = 10 := by norm_num
  have hcodes : (1023.0 : ℝ) = 1023 := by norm_num
  rw [toLinear, largestCode, hten, hcodes, decimal_one, mul_comm x]
  rfl

theorem toCode_eq (y : ℝ) : p.toCode y =
    p.code (max logFloor ((y - p.shadowValue) / (p.highlightValue - p.shadowValue) *
      (1 - p.blackExposure) + p.blackExposure)) := by
  have hten : (10.0 : ℝ) = 10 := by norm_num
  have hcodes : (1023.0 : ℝ) = 1023 := by norm_num
  simp only [toCode, Scalar.atLeast_eq, largestCode, hcodes, decimal_one, code, ← hten]
  rfl

variable {p} (hgamma : 0 < p.gammaValue)

include hgamma

/-- The exponential is undone by the logarithm. -/
theorem code_exposure (x : ℝ) : p.code (p.exposure x) = x := by
  rw [code, exposure, Real.logb_rpow (by norm_num) (by norm_num)]
  field_simp
  ring

theorem strictMonoOn_code : StrictMonoOn p.code (Ioi 0) := by
  intro s hs t ht hst
  have hlog : Real.logb 10 s < Real.logb 10 t := Real.logb_lt_logb (by norm_num) hs hst
  unfold code
  gcongr

/-- Reference black is exposed less than reference white. -/
theorem blackExposure_lt_one (hblack : p.blackValue < p.whiteValue) : p.blackExposure < 1 := by
  apply Real.rpow_lt_one_of_one_lt_of_neg
  · norm_num
  · apply div_neg_of_neg_of_pos _ hgamma
    apply mul_neg_of_neg_of_pos
    · exact sub_neg.mpr hblack
    · norm_num [densityPerCode]

/-- From a code to linear light and back, a code below that of the floor is raised to it. -/
theorem toCode_toLinear (hblack : p.blackValue < p.whiteValue)
    (hlights : p.highlightValue ≠ p.shadowValue) (x : ℝ) :
    p.toCode (p.toLinear x) = max (p.code logFloor) x := by
  have hscale : p.highlightValue - p.shadowValue ≠ 0 := sub_ne_zero.mpr hlights
  have hrange : 1 - p.blackExposure ≠ 0 := (sub_pos.mpr (blackExposure_lt_one hgamma hblack)).ne'
  -- The two straight lines are inverse, so that the logarithm is taken of the exposure.
  have hexposed : (p.toLinear x - p.shadowValue) / (p.highlightValue - p.shadowValue) *
      (1 - p.blackExposure) + p.blackExposure = p.exposure x := by
    rw [toLinear_eq]
    field_simp
    ring
  rw [toCode_eq, hexposed,
    (strictMonoOn_code hgamma).monotoneOn.map_max logFloor_pos (p.exposure_pos x),
    code_exposure hgamma]

/-- The code that comes back is the one that was given exactly if its exposure reaches the floor. -/
theorem toCode_toLinear_eq_self_iff (hblack : p.blackValue < p.whiteValue)
    (hlights : p.highlightValue ≠ p.shadowValue) (x : ℝ) :
    p.toCode (p.toLinear x) = x ↔ logFloor ≤ p.exposure x := by
  rw [toCode_toLinear hgamma hblack hlights, max_eq_right_iff,
    ← (strictMonoOn_code hgamma).le_iff_le logFloor_pos (p.exposure_pos x), code_exposure hgamma]

end DensityParams

/-! ## §5 Both nodes -/

/-- With real powers and logarithms the reverse styles undo the forward styles. Whatever exposure,
contrast and pivot are, the linear and the video curve are bijections of the values that are not
negative, and of all values if the contrast that is used is one, as the logarithmic curve always is.
A film density gives back every code whose exposure reaches the floor of the logarithm, and no other
code; the others are raised to the code of the floor. -/
theorem reverse_styles_undo :
    (∀ e : ExposureContrast ℝ,
      Undoes (Ici 0) (e.curve .linearRev) (e.curve .linear) ∧
      Undoes (Ici 0) (e.curve .videoRev) (e.curve .video) ∧
      (e.contrastUsed = 1 →
        Undoes univ (e.curve .linearRev) (e.curve .linear) ∧
        Undoes univ (e.curve .videoRev) (e.curve .video)) ∧
      Undoes univ (e.curve .logRev) (e.curve .log)) ∧
    ∀ (params : List (DensityParams ℝ)) (channel : ℕ),
      let curve (style : LogStyle) : ℝ → ℝ := LogCurve.eval { style, params } channel
      let p := LogCurve.paramsFor { style := .logToLin, params } channel
      0 < p.gammaValue → p.blackValue < p.whiteValue → p.highlightValue ≠ p.shadowValue → ∀ x,
        (curve .linToLog (curve .logToLin x) = x ↔
          DensityParams.logFloor ≤ (10 : ℝ) ^ ((1023 * x - p.whiteValue) * 0.002 / p.gammaValue)) ∧
        curve .linToLog (curve .logToLin x) = max (p.code DensityParams.logFloor) x := by
  constructor
  · intro e
    exact ⟨e.undoes_linear, e.undoes_video, e.undoes_withoutContrast, e.undoes_log⟩
  · intro params channel curve p hgamma hblack hlights x
    constructor
    · exact DensityParams.toCode_toLinear_eq_self_iff hgamma hblack hlights x
    · exact DensityParams.toCode_toLinear hgamma hblack hlights x

/-- Contrast and pivot are below their floors. -/
noncomputable def flattest : ExposureContrast ℝ where
  style := .linear
  exposure := -6
  contrast := -1
  pivot := 0

/-- Green with the lights exchanged, the other channels with the values of the scanner. -/
noncomputable def exchangedGreen : DensityParams ℝ where
  gamma := some 0.5
  refWhite := some 500
  highlight := some 0.25
  shadow := some 1
  channel := some .green

-- The exposure of code zero is a hundredth, that of code minus ten is below the floor.
theorem reverse_styles_undo_exchanged :
    let curve (style : LogStyle) : ℝ → ℝ :=
      LogCurve.eval { style, params := [{}, exchangedGreen] } 1
    (flattest.curve .linearRev (flattest.curve .linear 4) = 4 ∧
      flattest.curve .videoRev (flattest.curve .video 4) = 4 ∧
      flattest.curve .logRev (flattest.curve .log (-4)) = -4) ∧
    ((ExposureContrast.neutral .log : ExposureContrast ℝ).contrastUsed = 1 ∧
      (ExposureContrast.neutral .log).curve .videoRev
        ((ExposureContrast.neutral .log).curve .video (-4)) = -4) ∧
    (0 < exchangedGreen.gammaValue ∧ exchangedGreen.blackValue < exchangedGreen.whiteValue ∧
      exchangedGreen.highlightValue ≠ exchangedGreen.shadowValue ∧
      curve .linToLog (curve .logToLin 0) = 0 ∧
      curve .linToLog (curve .logToLin (-10)) ≠ -10) := by
  intro curve
  obtain ⟨hcontrast, hdensity⟩ := reverse_styles_undo
  have hgamma : 0 < exchangedGreen.gammaValue := by
    norm_num [exchangedGreen, DensityParams.gammaValue]
  have hblack : exchangedGreen.blackValue < exchangedGreen.whiteValue := by
    norm_num [exchangedGreen, DensityParams.blackValue, DensityParams.whiteValue]
  have hlights : exchangedGreen.highlightValue ≠ exchangedGreen.shadowValue := by
    norm_num [exchangedGreen, DensityParams.highlightValue, DensityParams.shadowValue]
  have hgreen := hdensity [{}, exchangedGreen] 1 hgamma hblack hlights
  have hone : (ExposureContrast.neutral .log : ExposureContrast ℝ).contrastUsed = 1 := by
    norm_num [ExposureContrast.contrastUsed, Scalar.atLeast_eq, ExposureContrast.neutral,
      ExposureContrast.leastContrast]
  obtain ⟨hlinear, hvideo, -, hlog⟩ := hcontrast flattest
  obtain ⟨-, -, hwithout, -⟩ := hcontrast (ExposureContrast.neutral .log)
  refine ⟨⟨?_, ?_, ?_⟩, ⟨hone, ?_⟩, hgamma, hblack, hlights, ?_, ?_⟩
  · exact hlinear.reverse_forward 4 (by norm_num)
  · exact hvideo.reverse_forward 4 (by norm_num)
  · exact hlog.reverse_forward (-4) (mem_univ _)
  · exact (hwithout hone).2.reverse_forward (-4) (mem_univ _)
  · apply (hgreen 0).1.mpr
    have hexponent : (1023 * 0 - (500 : ℝ)) * 0.002 / 0.5 = -2 := by norm_num
    show DensityParams.logFloor ≤ (10 : ℝ) ^ ((1023 * 0 - (500 : ℝ)) * 0.002 / 0.5)
    rw [hexponent, DensityParams.logFloor_eq]
    norm_num
  · apply mt (hgreen (-10)).1.mp
    have hexponent : (1023 * -10 - (500 : ℝ)) * 0.002 / 0.5 ≤ -39 := by norm_num
    have hexposed := Real.rpow_le_rpow_of_exponent_le (by norm_num : (1 : ℝ) ≤ 10) hexponent
    show ¬ DensityParams.logFloor ≤ (10 : ℝ) ^ ((1023 * -10 - (500 : ℝ)) * 0.002 / 0.5)
    rw [not_le, DensityParams.logFloor_eq]
    apply hexposed.trans_lt
    norm_num

end CommonLut
