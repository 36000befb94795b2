import Mathlib
import CommonLut.Operator.Cdl
import CommonLut.Proofs.Powers

/-!
# Decision lists undone

Without a clamp the two directions of a decision list undo each other, for slopes, powers and a
saturation of either sign that are far enough from zero to be divided by. The weights of the luma
add up to one, so that saturating keeps the luma and is undone by the reciprocal saturation. A power
keeps positive values positive, so that both directions skip it at the same values.

Main definitions: `Cdl.gradeWith`, `Cdl.Invertible`.
Main statements: `Cdl.saturate_saturate`, `Cdl.reverseChannel_forwardChannel`,
`Cdl.forwardChannel_reverseChannel`, `Cdl.gradeWith_undone`.
-/

namespace CommonLut.Cdl

open Exact

variable (pow : ℝ → ℝ → ℝ)

/-! ## §1 Saturation -/

/-- A saturation of one is left out without any difference. -/
theorem saturate_eq (p : Triple ℝ) (saturation : ℝ) :
    let _ := withPower pow
    saturate p saturation = p.map fun x => luma p + saturation * (x - luma p) := by
  intro _
  unfold saturate
  split_ifs with hone
  · have hsaturation : saturation = 1 := by
      rwa [beq_iff_eq, decimal_one] at hone
    simp only [hsaturation, Triple.map, one_mul, add_sub_cancel]
  · rfl

/-- The weights add up to one: what all channels have in common is the luma of it. -/
theorem luma_around (p : Triple ℝ) (y t : ℝ) :
    let _ := withPower pow
    luma (p.map fun x => y + t * (x - y)) = y + t * (luma p - y) := by
  norm_num [luma, Triple.map]
  ring

/-- Saturating keeps the luma. -/
theorem luma_saturate (p : Triple ℝ) (saturation : ℝ) :
    let _ := withPower pow
    luma (saturate p saturation) = luma p := by
  intro _
  rw [saturate_eq, luma_around, sub_self, mul_zero, add_zero]

theorem saturate_saturate (p : Triple ℝ) {s t : ℝ} (h : s * t = 1) :
    let _ := withPower pow
    saturate (saturate p s) t = p := by
  intro _
  -- Both directions move the channels around the same luma.
  have hchannel : ∀ x y : ℝ, y + t * (y + s * (x - y) - y) = x := by
    intro x y
    linear_combination (x - y) * h
  rw [saturate_eq pow (saturate p s), luma_saturate, saturate_eq]
  simp only [Triple.map, hchannel]

/-! ## §2 One channel -/

theorem isUsable_iff (x : ℝ) :
    let _ := withPower pow
    isUsable x = true ↔ 1e-10 < |x| := by
  exact decide_eq_true_iff

theorem ne_zero_of_usable {x : ℝ} (h : 1e-10 < |x|) : x ≠ 0 := by
  rintro rfl
  norm_num at h

variable {pow} (hpow : PowersUndone pow) {slope offset power : ℝ}

theorem forwardChannel_of_pos {x : ℝ} (hx : 0 < x * slope + offset) :
    let _ := withPower pow
    forwardChannel .fwdNoClamp slope offset power x = pow (x * slope + offset) power := by
  intro _
  simp only [forwardChannel, CdlStyle.clamps, decimal_zero, if_pos hx]
  rfl

theorem forwardChannel_of_nonpos {x : ℝ} (hx : x * slope + offset ≤ 0) :
    let _ := withPower pow
    forwardChannel .fwdNoClamp slope offset power x = x * slope + offset := by
  intro _
  simp only [forwardChannel, CdlStyle.clamps, decimal_zero, if_neg hx.not_gt]
  rfl

theorem reverseChannel_of_pos (hslope : 1e-10 < |slope|) (hpower : 1e-10 < |power|) {x : ℝ}
    (hx : 0 < x) :
    let _ := withPower pow
    reverseChannel .revNoClamp slope offset power x = (pow x (1 / power) - offset) / slope := by
  intro _
  have hused := (isUsable_iff pow power).mpr hpower
  have hdivided := (isUsable_iff pow slope).mpr hslope
  simp only [reverseChannel, confine, CdlStyle.clamps, decimal_zero, decimal_one, hused, hdivided,
    Bool.false_eq_true, if_false, if_true, and_true]
  rw [if_pos hx]
  rfl

theorem reverseChannel_of_nonpos (hslope : 1e-10 < |slope|) {x : ℝ} (hx : x ≤ 0) :
    let _ := withPower pow
    reverseChannel .revNoClamp slope offset power x = (x - offset) / slope := by
  intro _
  have hdivided := (isUsable_iff pow slope).mpr hslope
  simp only [reverseChannel, confine, CdlStyle.clamps, decimal_zero, hdivided, Bool.false_eq_true,
    if_false, if_true]
  rw [if_neg fun h => hx.not_gt h.1]

include hpow

theorem reverseChannel_forwardChannel (hslope : 1e-10 < |slope|) (hpower : 1e-10 < |power|)
    (x : ℝ) :
    let _ := withPower pow
    reverseChannel .revNoClamp slope offset power
      (forwardChannel .fwdNoClamp slope offset power x) = x := by
  intro _
  have hundone : (x * slope + offset - offset) / slope = x := by
    rw [add_sub_cancel_right, mul_div_cancel_right₀ _ (ne_zero_of_usable hslope)]
  rcases lt_or_ge 0 (x * slope + offset) with hpos | hnonpos
  -- The power of a positive value is positive, so that the way back takes the root.
  · rw [forwardChannel_of_pos hpos, reverseChannel_of_pos hslope hpower (hpow.pos _ _ hpos),
      hpow.root _ _ hpos (ne_zero_of_usable hpower), hundone]
  · rw [forwardChannel_of_nonpos hnonpos, reverseChannel_of_nonpos hslope hnonpos, hundone]

theorem forwardChannel_reverseChannel (hslope : 1e-10 < |slope|) (hpower : 1e-10 < |power|)
    (x : ℝ) :
    let _ := withPower pow
    forwardChannel .fwdNoClamp slope offset power
      (reverseChannel .revNoClamp slope offset power x) = x := by
  intro _
  have hundone : ∀ y : ℝ, (y - offset) / slope * slope + offset = y := by
    intro y
    rw [div_mul_cancel₀ _ (ne_zero_of_usable hslope), sub_add_cancel]
  rcases lt_or_ge 0 x with hpos | hnonpos
  · have hroot : 0 < pow x (1 / power) := hpow.pos _ _ hpos
    rw [reverseChannel_of_pos hslope hpower hpos, forwardChannel_of_pos (by rwa [hundone]), hundone,
      hpow.power_root hpos (ne_zero_of_usable hpower)]
  · rw [reverseChannel_of_nonpos hslope hnonpos, forwardChannel_of_nonpos (by rwa [hundone]),
      hundone]

omit hpow

/-! ## §3 Both directions -/

section

variable (pow)

/-- The colour after a list, in exact arithmetic with a given function for powers. -/
noncomputable def gradeWith (c : Cdl ℝ) (p : Triple ℝ) : Triple ℝ :=
  let _ := withPower pow
  c.grade p

variable (c : Cdl ℝ) (p : Triple ℝ)

/-- Slope, offset and power of every channel. -/
noncomputable def forwardChannels : Triple ℝ :=
  let _ := withPower pow
  (forwardChannel .fwdNoClamp c.slope.1 c.offset.1 c.power.1 p.1,
    forwardChannel .fwdNoClamp c.slope.2.1 c.offset.2.1 c.power.2.1 p.2.1,
    forwardChannel .fwdNoClamp c.slope.2.2 c.offset.2.2 c.power.2.2 p.2.2)

/-- Power, offset and slope of every channel undone. -/
noncomputable def reverseChannels : Triple ℝ :=
  let _ := withPower pow
  (reverseChannel .revNoClamp c.slope.1 c.offset.1 c.power.1 p.1,
    reverseChannel .revNoClamp c.slope.2.1 c.offset.2.1 c.power.2.1 p.2.1,
    reverseChannel .revNoClamp c.slope.2.2 c.offset.2.2 c.power.2.2 p.2.2)

theorem gradeWith_forward :
    let _ := withPower pow
    gradeWith pow { c with style := .fwdNoClamp } p =
      saturate (forwardChannels pow c p) c.saturation := rfl

theorem gradeWith_reverse (h : 1e-10 < |c.saturation|) :
    let _ := withPower pow
    gradeWith pow { c with style := .revNoClamp } p =
      reverseChannels pow c (saturate p (1 / c.saturation)) := by
  intro _
  have hused := (isUsable_iff pow c.saturation).mpr h
  -- The style neither clamps nor skips the saturation, which is left to be decided.
  rw [← decimal_one, ← if_pos hused (t := saturate p (1.0 / c.saturation)) (e := p)]
  rfl

end

/-- Every parameter that is divided by is far enough from zero. -/
structure Invertible (c : Cdl ℝ) : Prop where
  slope : 1e-10 < |c.slope.1| ∧ 1e-10 < |c.slope.2.1| ∧ 1e-10 < |c.slope.2.2|
  power : 1e-10 < |c.power.1| ∧ 1e-10 < |c.power.2.1| ∧ 1e-10 < |c.power.2.2|
  saturation : 1e-10 < |c.saturation|

namespace Invertible

variable {c : Cdl ℝ} (hc : c.Invertible) (hpow : PowersUndone pow) (p : Triple ℝ)

include hc hpow

theorem reverseChannels_forwardChannels :
    reverseChannels pow c (forwardChannels pow c p) = p := by
  obtain ⟨⟨hs₁, hs₂, hs₃⟩, ⟨hp₁, hp₂, hp₃⟩, -⟩ := hc
  simp only [reverseChannels, forwardChannels, reverseChannel_forwardChannel hpow hs₁ hp₁,
    reverseChannel_forwardChannel hpow hs₂ hp₂, reverseChannel_forwardChannel hpow hs₃ hp₃]

theorem forwardChannels_reverseChannels :
    forwardChannels pow c (reverseChannels pow c p) = p := by
  obtain ⟨⟨hs₁, hs₂, hs₃⟩, ⟨hp₁, hp₂, hp₃⟩, -⟩ := hc
  simp only [reverseChannels, forwardChannels, forwardChannel_reverseChannel hpow hs₁ hp₁,
    forwardChannel_reverseChannel hpow hs₂ hp₂, forwardChannel_reverseChannel hpow hs₃ hp₃]

end Invertible

/-- Without a clamp the reverse direction of a list undoes the forward one on every colour, and the
forward direction the reverse one. -/
theorem gradeWith_undone (hpow : PowersUndone pow) {c : Cdl ℝ} (hc : c.Invertible) (p : Triple ℝ) :
    gradeWith pow { c with style := .revNoClamp }
      (gradeWith pow { c with style := .fwdNoClamp } p) = p ∧
    gradeWith pow { c with style := .fwdNoClamp }
      (gradeWith pow { c with style := .revNoClamp } p) = p := by
  have hsaturation := ne_zero_of_usable hc.saturation
  constructor
  · rw [gradeWith_reverse pow c _ hc.saturation, gradeWith_forward,
      saturate_saturate pow _ (mul_one_div_cancel hsaturation),
      hc.reverseChannels_forwardChannels hpow]
  · rw [gradeWith_reverse pow c _ hc.saturation, gradeWith_forward,
      hc.forwardChannels_reverseChannels hpow,
      saturate_saturate pow _ (one_div_mul_cancel hsaturation)]

/-- A list whose slope, power and saturation are negative somewhere. -/
noncomputable def negativeList : Cdl ℝ where
  slope := (-2.0, 1.0, 0.5)
  offset := (1.0, 0.0, -1.0)
  power := (2.0, -1.0, 0.3)
  saturation := -1.0

-- Forward, the red channel becomes negative and is left out of the power in both directions.
theorem gradeWith_undone_negative :
    PowersUndone Real.rpow ∧ negativeList.Invertible ∧
    gradeWith Real.rpow { negativeList with style := .revNoClamp }
      (gradeWith Real.rpow { negativeList with style := .fwdNoClamp } (1, 2, 4)) = (1, 2, 4) ∧
    gradeWith Real.rpow { negativeList with style := .fwdNoClamp }
      (gradeWith Real.rpow { negativeList with style := .revNoClamp } (1, 2, 4)) = (1, 2, 4) := by
  have hinvertible : negativeList.Invertible := by
    constructor <;> norm_num [negativeList]
  exact ⟨powersUndone_rpow, hinvertible, gradeWith_undone powersUndone_rpow hinvertible _⟩

end CommonLut.Cdl
