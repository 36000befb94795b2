import Mathlib
import CommonLut.Operator.Range
import CommonLut.Proofs.Exact

/-!
# What a range does between two bit depths

Bounds are given in the depths of a node, but a range works on normalized values: the input bounds
and the value are divided by the full scale of the input, the output bounds by that of the output,
and the result is scaled back and clipped to the code values. Read in exact arithmetic all of this
cancels: a range with four bounds is the line through the two pairs of bounds, in the units of its
depths, as far as neither its clamp nor the code values cut it off.

Main definitions: `BitDepth.Carries`, `Range.value`, `Range.ofBounds`, `Range.line`.
Main statements: `Range.remap_ofBounds`, `Range.value_of_mem`, `Range.value_remaps_bounds`.
-/

namespace CommonLut

open Set Exact

/-! ## §1 Depths -/

namespace BitDepth

variable (d : BitDepth)

theorem fullScale_pos : (0 : ℝ) < d.fullScale := by
  cases d <;> norm_num [fullScale]

theorem fullScale_of_float (h : d.isFloat = true) : (d.fullScale : ℝ) = 1 := by
  cases d <;> first | contradiction | norm_num [fullScale]

theorem normalize_eq (x : ℝ) : d.normalize x = x / d.fullScale := by
  unfold normalize
  split_ifs with h
  · rw [d.fullScale_of_float h, div_one]
  · rfl

/-- A depth carries a value: any for a float depth, the range of the code values for an integer
one. -/
def Carries (x : ℝ) : Prop := d.isInteger = true → x ∈ Icc (0 : ℝ) d.fullScale

theorem Carries.of_mem {d : BitDepth} {x y z : ℝ} (hx : d.Carries x) (hy : d.Carries y)
    (hz : z ∈ uIcc x y) : d.Carries z := fun h => uIcc_subset_Icc (hx h) (hy h) hz

/-- Scaling a value back and forth changes nothing as long as the depth carries it. -/
theorem denormalize_div {x : ℝ} (h : d.Carries x) : d.denormalize (x / d.fullScale) = x := by
  unfold denormalize
  split_ifs with hfloat
  · rw [d.fullScale_of_float hfloat, div_one]
  · obtain ⟨hlow, hhigh⟩ := h (by simp [isInteger, hfloat])
    rw [div_mul_cancel₀ _ d.fullScale_pos.ne', Scalar.atLeast_eq, Scalar.atMost_eq, decimal_zero,
      max_eq_right hlow, min_eq_right hhigh]

theorem monotone_denormalize : Monotone (d.denormalize : ℝ → ℝ) := by
  intro x y hxy
  unfold denormalize
  split_ifs with hfloat
  · exact hxy
  · simp only [Scalar.atLeast_eq, Scalar.atMost_eq]
    apply min_le_min_left
    apply max_le_max_left
    exact mul_le_mul_of_nonneg_right hxy d.fullScale_pos.le

end BitDepth

namespace Range

/-! ## §2 Values -/

/-- A channel value after the range. -/
noncomputable def value (r : Range ℝ) (input output : BitDepth) : ℝ → ℝ :=
  Pixel.throughDepths input output (r.normalize input output).remap

theorem value_eq (r : Range ℝ) (input output : BitDepth) (x : ℝ) :
    r.value input output x =
      output.denormalize ((r.normalize input output).remap (x / input.fullScale)) := by
  rw [← BitDepth.normalize_eq]
  rfl

theorem confine_eq (x y v : ℝ) : confine x y v = min (max v (min x y)) (max x y) := by
  rw [confine, Scalar.smaller_eq, Scalar.larger_eq, Scalar.smaller_eq, Scalar.larger_eq]

theorem confine_mem (x y v : ℝ) : confine x y v ∈ uIcc x y := by
  rw [confine_eq, uIcc]
  exact ⟨le_min (le_max_right _ _) inf_le_sup, min_le_right _ _⟩

theorem confine_of_mem {x y v : ℝ} (h : v ∈ uIcc x y) : confine x y v = v := by
  rw [confine_eq, max_eq_left h.1, min_eq_left h.2]

/-! ## §3 Four bounds -/

/-- The range with all four bounds. -/
def ofBounds (minIn maxIn minOut maxOut : ℝ) (style : Option RangeStyle) : Range ℝ where
  minIn := some minIn
  maxIn := some maxIn
  minOut := some minOut
  maxOut := some maxOut
  style := style

/-- The line that takes the input bounds to the output bounds; level if the input bounds are the
same. -/
noncomputable def line (minIn maxIn minOut maxOut x : ℝ) : ℝ :=
  (x - minIn) * ((maxOut - minOut) / (maxIn - minIn)) + minOut

section

variable {minIn maxIn minOut maxOut : ℝ}

theorem line_min : line minIn maxIn minOut maxOut minIn = minOut := by
  rw [line, sub_self, zero_mul, zero_add]

theorem line_max (h : minIn ≠ maxIn) : line minIn maxIn minOut maxOut maxIn = maxOut := by
  rw [line, mul_div_cancel₀ _ (sub_ne_zero.mpr h.symm), sub_add_cancel]

/-- Between the input bounds the line stays between the output bounds. -/
theorem line_mem {x : ℝ} (hx : x ∈ uIcc minIn maxIn) :
    line minIn maxIn minOut maxOut x ∈ uIcc minOut maxOut := by
  rw [← segment_eq_uIcc, segment_eq_image'] at hx
  obtain ⟨t, ht, rfl⟩ := hx
  rcases eq_or_ne minIn maxIn with rfl | hne
  · simp only [sub_self, smul_zero, add_zero, line_min, left_mem_uIcc]
  · have hpoint : line minIn maxIn minOut maxOut (minIn + t • (maxIn - minIn)) =
        minOut + t • (maxOut - minOut) := by
      have hin := sub_ne_zero.mpr hne.symm
      simp only [line, smul_eq_mul]
      field_simp
      ring
    rw [hpoint]
    exact (convex_uIcc _ _).add_smul_sub_mem left_mem_uIcc right_mem_uIcc ht

/-- The line as a slope and an offset. -/
theorem line_eq (x : ℝ) :
    line minIn maxIn minOut maxOut x = (maxOut - minOut) / (maxIn - minIn) * x +
      (minOut - minIn * ((maxOut - minOut) / (maxIn - minIn))) := by
  unfold line
  ring

/-- The line back is the one with the bounds exchanged. -/
theorem line_line (h : minOut ≠ maxOut) {x : ℝ} (hx : x ∈ uIcc minIn maxIn) :
    line minOut maxOut minIn maxIn (line minIn maxIn minOut maxOut x) = x := by
  rcases eq_or_ne minIn maxIn with rfl | hne
  -- Between equal bounds there is one value only.
  · rw [uIcc_self, mem_singleton_iff] at hx
    rw [hx, line_min, line_min]
  · have hin := sub_ne_zero.mpr hne.symm
    have hout := sub_ne_zero.mpr h.symm
    unfold line
    field_simp
    ring

/-- The factor of normalized bounds is that of the bounds, in the units of the depths. -/
theorem factor_eq (input output : BitDepth) :
    (if maxIn / input.fullScale == minIn / input.fullScale then 0.0
      else (maxOut / output.fullScale - minOut / output.fullScale) /
        (maxIn / input.fullScale - minIn / input.fullScale)) =
      (maxOut - minOut) / (maxIn - minIn) * (input.fullScale / output.fullScale) := by
  have hin := input.fullScale_pos.ne'
  have hout := output.fullScale_pos.ne'
  rw [← sub_div, ← sub_div, div_div_div_comm]
  split_ifs with hsame
  · rw [beq_iff_eq, div_left_inj' hin] at hsame
    rw [hsame, sub_self, div_zero, zero_mul]
    norm_num
  · rw [div_div_eq_mul_div, mul_div_assoc']

end

section

variable (minIn maxIn minOut maxOut : ℝ) (style : Option RangeStyle) (input output : BitDepth)

/-- Normalizing cancels: the range computes its line, in the units of the output, and clamps it if
it clamps. -/
theorem remap_ofBounds (x : ℝ) :
    ((ofBounds minIn maxIn minOut maxOut style).normalize input output).remap
        (x / input.fullScale) =
      if (ofBounds minIn maxIn minOut maxOut style).clamps then
        confine (minOut / output.fullScale) (maxOut / output.fullScale)
          (line minIn maxIn minOut maxOut x / output.fullScale)
      else line minIn maxIn minOut maxOut x / output.fullScale := by
  have hin := input.fullScale_pos.ne'
  have hline : (x / input.fullScale - minIn / input.fullScale) *
      ((maxOut - minOut) / (maxIn - minIn) * (input.fullScale / output.fullScale)) +
        minOut / output.fullScale = line minIn maxIn minOut maxOut x / output.fullScale := by
    rw [line, add_div, ← sub_div]
    congr 1
    field_simp
  rw [← hline, ← factor_eq input output]
  rfl

variable {minIn maxIn minOut maxOut input output}

/-- Between the output bounds nothing is cut off, whatever the style. -/
theorem value_of_mem (hmin : output.Carries minOut) (hmax : output.Carries maxOut) {x : ℝ}
    (hx : line minIn maxIn minOut maxOut x ∈ uIcc minOut maxOut) :
    (ofBounds minIn maxIn minOut maxOut style).value input output x =
      line minIn maxIn minOut maxOut x := by
  have hscaled : line minIn maxIn minOut maxOut x / output.fullScale ∈
      uIcc (minOut / output.fullScale) (maxOut / output.fullScale) :=
    (monotone_div_right_of_nonneg output.fullScale_pos.le).mapsTo_uIcc hx
  rw [value_eq, remap_ofBounds, confine_of_mem hscaled, ite_self]
  exact output.denormalize_div (hmin.of_mem hmax hx)

theorem value_minIn (hmin : output.Carries minOut) (hmax : output.Carries maxOut) :
    (ofBounds minIn maxIn minOut maxOut style).value input output minIn = minOut := by
  rw [value_of_mem style hmin hmax (line_mem left_mem_uIcc), line_min]

theorem value_maxIn (hmin : output.Carries minOut) (hmax : output.Carries maxOut)
    (h : minIn ≠ maxIn) :
    (ofBounds minIn maxIn minOut maxOut style).value input output maxIn = maxOut := by
  rw [value_of_mem style hmin hmax (line_mem right_mem_uIcc), line_max h]

/-- Between the input bounds a range is undone by the one with bounds and depths exchanged. -/
theorem value_value (hminIn : input.Carries minIn) (hmaxIn : input.Carries maxIn)
    (hminOut : output.Carries minOut) (hmaxOut : output.Carries maxOut) (h : minOut ≠ maxOut)
    (style' : Option RangeStyle) {x : ℝ} (hx : x ∈ uIcc minIn maxIn) :
    (ofBounds minOut maxOut minIn maxIn style').value output input
      ((ofBounds minIn maxIn minOut maxOut style).value input output x) = x := by
  have hback := line_line h hx
  rw [value_of_mem style hminOut hmaxOut (line_mem hx),
    value_of_mem style' hminIn hmaxIn (by rwa [hback]), hback]

/-- Without a clamp only the code values of the output cut the line off. -/
theorem value_of_carries (hstyle : style = some .noClamp) {x : ℝ}
    (hx : output.Carries (line minIn maxIn minOut maxOut x)) :
    (ofBounds minIn maxIn minOut maxOut style).value input output x =
      line minIn maxIn minOut maxOut x := by
  have hclamps : (ofBounds minIn maxIn minOut maxOut style).clamps = false := by
    rw [hstyle]
    rfl
  rw [value_eq, remap_ofBounds, hclamps]
  exact output.denormalize_div hx

/-- With a clamp no value leaves the output bounds. -/
theorem value_mem (hmin : output.Carries minOut) (hmax : output.Carries maxOut)
    (hclamps : (ofBounds minIn maxIn minOut maxOut style).clamps = true) (x : ℝ) :
    (ofBounds minIn maxIn minOut maxOut style).value input output x ∈ uIcc minOut maxOut := by
  have hmem := output.monotone_denormalize.mapsTo_uIcc (confine_mem (minOut / output.fullScale)
    (maxOut / output.fullScale) (line minIn maxIn minOut maxOut x / output.fullScale))
  rw [output.denormalize_div hmin, output.denormalize_div hmax] at hmem
  rw [value_eq, remap_ofBounds, if_pos hclamps]
  exact hmem

end

/-! ## §4 Bounds on one side -/

section

variable {r : Range ℝ}

/-- Without a full set of bounds the lower pair counts first. -/
theorem le_remap {lowIn lowOut : ℝ} (hclamps : r.clamps = true) (hin : r.minIn = some lowIn)
    (hout : r.minOut = some lowOut) (hside : r.maxIn = none ∨ r.maxOut = none) (v : ℝ) :
    lowOut ≤ r.remap v := by
  have hremap : r.remap v = Scalar.larger (v - lowIn + lowOut) lowOut := by
    rcases hside with hside | hside
    · cases hmax : r.maxOut <;> simp [remap, hin, hout, hside, hmax, hclamps]
    · cases hmax : r.maxIn <;> simp [remap, hin, hout, hside, hmax, hclamps]
  rw [hremap, Scalar.larger_eq]
  exact le_max_right _ _

theorem remap_le {highIn highOut : ℝ} (hclamps : r.clamps = true) (hin : r.maxIn = some highIn)
    (hout : r.maxOut = some highOut) (hside : r.minIn = none ∨ r.minOut = none) (v : ℝ) :
    r.remap v ≤ highOut := by
  have hremap : r.remap v = Scalar.smaller (v - highIn + highOut) highOut := by
    rcases hside with hside | hside
    · cases hmin : r.minOut <;> simp [remap, hin, hout, hside, hmin, hclamps]
    · cases hmin : r.minIn <;> simp [remap, hin, hout, hside, hmin, hclamps]
  rw [hremap, Scalar.smaller_eq]
  exact min_le_right _ _

variable {input output : BitDepth}

theorem le_value {lowIn lowOut : ℝ} (hcarries : output.Carries lowOut) (hclamps : r.clamps = true)
    (hin : r.minIn = some lowIn) (hout : r.minOut = some lowOut)
    (hside : r.maxIn = none ∨ r.maxOut = none) (x : ℝ) : lowOut ≤ r.value input output x := by
  have hle : lowOut / output.fullScale ≤ (r.normalize input output).remap (x / input.fullScale) := by
    have hin' : (r.normalize input output).minIn = some (lowIn / input.fullScale) := by
      simp [normalize, hin]
    apply le_remap (r := r.normalize input output) hclamps hin'
    · simp [normalize, hout]
    · simpa [normalize] using hside
  calc lowOut = output.denormalize (lowOut / output.fullScale) :=
        (output.denormalize_div hcarries).symm
    _ ≤ output.denormalize ((r.normalize input output).remap (x / input.fullScale)) :=
        output.monotone_denormalize hle
    _ = r.value input output x := (r.value_eq input output x).symm

theorem value_le {highIn highOut : ℝ} (hcarries : output.Carries highOut)
    (hclamps : r.clamps = true) (hin : r.maxIn = some highIn) (hout : r.maxOut = some highOut)
    (hside : r.minIn = none ∨ r.minOut = none) (x : ℝ) : r.value input output x ≤ highOut := by
  have hle : (r.normalize input output).remap (x / input.fullScale) ≤
      highOut / output.fullScale := by
    have hin' : (r.normalize input output).maxIn = some (highIn / input.fullScale) := by
      simp [normalize, hin]
    apply remap_le (r := r.normalize input output) hclamps hin'
    · simp [normalize, hout]
    · simpa [normalize] using hside
  calc r.value input output x =
        output.denormalize ((r.normalize input output).remap (x / input.fullScale)) :=
        r.value_eq input output x
    _ ≤ output.denormalize (highOut / output.fullScale) := output.monotone_denormalize hle
    _ = highOut := output.denormalize_div hcarries

end

/-! ## §5 Remapping -/

/-- In exact arithmetic, between any two bit depths and for bounds that these carry: a range takes
its input bounds to its output bounds, and is affine where it does not clamp and no code value cuts
it off. When it clamps, it does not leave its output bounds; nor does a range with only one pair of
bounds pass the output bound of that pair. Between the input bounds the range is undone by the one
with bounds and depths exchanged. -/
theorem value_remaps_bounds (input output : BitDepth) {minIn maxIn minOut maxOut : ℝ}
    (hminIn : input.Carries minIn) (hmaxIn : input.Carries maxIn) (hminOut : output.Carries minOut)
    (hmaxOut : output.Carries maxOut) (style : Option RangeStyle) :
    let r := ofBounds minIn maxIn minOut maxOut style
    (∀ (s : Range ℝ) (pixel : Pixel ℝ),
      s.apply input output pixel = pixel.mapColor fun _ => s.value input output) ∧
    (minIn ≠ maxIn → r.value input output minIn = minOut ∧ r.value input output maxIn = maxOut) ∧
    (minIn ≠ maxIn → style = some .noClamp →
      ∃ slope offset : ℝ, slope * minIn + offset = minOut ∧ slope * maxIn + offset = maxOut ∧
        ∀ x, output.Carries (slope * x + offset) →
          r.value input output x = slope * x + offset) ∧
    (r.clamps = true → ∀ x, r.value input output x ∈ uIcc minOut maxOut) ∧
    (∀ s : Range ℝ, s.clamps = true → s.minIn = some minIn → s.minOut = some minOut →
      s.maxIn = none ∨ s.maxOut = none → ∀ x, minOut ≤ s.value input output x) ∧
    (∀ s : Range ℝ, s.clamps = true → s.maxIn = some maxIn → s.maxOut = some maxOut →
      s.minIn = none ∨ s.minOut = none → ∀ x, s.value input output x ≤ maxOut) ∧
    (minOut ≠ maxOut → ∀ style' : Option RangeStyle, ∀ x ∈ uIcc minIn maxIn,
      (ofBounds minOut maxOut minIn maxIn style').value output input (r.value input output x) =
        x) := by
  intro r
  refine ⟨fun _ _ => rfl, ?_, ?_, value_mem style hminOut hmaxOut, ?_, ?_, ?_⟩
  · intro hne
    exact ⟨value_minIn style hminOut hmaxOut, value_maxIn style hminOut hmaxOut hne⟩
  · intro hne hstyle
    refine ⟨_, _, (line_eq minIn).symm.trans line_min, (line_eq maxIn).symm.trans (line_max hne),
      ?_⟩
    intro x hx
    rw [← line_eq] at hx ⊢
    exact value_of_carries style hstyle hx
  · intro s hclamps hin hout hside
    exact le_value hminOut hclamps hin hout hside
  · intro s hclamps hin hout hside
    exact value_le hmaxOut hclamps hin hout hside
  · intro hne style' x hx
    exact value_value style hminIn hmaxIn hminOut hmaxOut hne style' hx

-- Ten-bit code values of the legal range, to a float depth and back.
theorem value_remaps_bounds_legal :
    BitDepth.uint10.Carries 64 ∧ BitDepth.uint10.Carries 940 ∧ BitDepth.float32.Carries 0 ∧
    BitDepth.float32.Carries 1 ∧
    (ofBounds 64 940 0 1 none).value .uint10 .float32 64 = 0 ∧
    (ofBounds 64 940 0 1 none).value .uint10 .float32 940 = 1 ∧
    (ofBounds 64 940 0 1 (some .noClamp)).value .uint10 .float32 1000 = 936 / 876 ∧
    (ofBounds 64 940 0 1 none).value .uint10 .float32 1000 ∈ uIcc 0 1 ∧
    (∀ x, 0 ≤ Range.value { minIn := some 64, minOut := some 0 } .uint10 .float32 x) ∧
    (∀ x, Range.value { maxIn := some 940, maxOut := some 1 } .uint10 .float32 x ≤ 1) ∧
    (ofBounds 0 1 64 940 none).value .float32 .uint10
      ((ofBounds 64 940 0 1 none).value .uint10 .float32 502) = 502 := by
  have hmin : BitDepth.uint10.Carries 64 := fun _ => by norm_num [BitDepth.fullScale]
  have hmax : BitDepth.uint10.Carries 940 := fun _ => by norm_num [BitDepth.fullScale]
  have hzero : BitDepth.float32.Carries 0 := fun h => absurd h (by decide)
  have hone : BitDepth.float32.Carries 1 := fun h => absurd h (by decide)
  obtain ⟨-, hbounds, -, hinside, hbelow, habove, hback⟩ :=
    value_remaps_bounds .uint10 .float32 hmin hmax hzero hone none
  obtain ⟨-, -, haffine, -⟩ :=
    value_remaps_bounds .uint10 .float32 hmin hmax hzero hone (some .noClamp)
  obtain ⟨hfirst, hlast⟩ := hbounds (by norm_num)
  obtain ⟨slope, offset, hlow, hhigh, hvalue⟩ := haffine (by norm_num) rfl
  refine ⟨hmin, hmax, hzero, hone, hfirst, hlast, ?_, hinside rfl 1000, ?_, ?_, ?_⟩
  · rw [hvalue 1000 fun h => absurd h (by decide)]
    linarith
  · exact hbelow _ rfl rfl rfl (.inl rfl)
  · exact habove _ rfl rfl rfl (.inl rfl)
  · exact hback (by norm_num) none 502 (by rw [uIcc_of_le] <;> norm_num)

end Range

end CommonLut
