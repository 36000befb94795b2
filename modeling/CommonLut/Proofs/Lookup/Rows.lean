import Mathlib
import CommonLut.Proofs.Lookup.Interpolation
import CommonLut.Proofs.Lookup.Segments

/-!
# What interpolation between rows promises

Both one-dimensional kernels, read in exact arithmetic, are curves made of segments: linear
interpolation blends the two rows around a position, cubic interpolation runs through the rows with
the slopes of the chords to their neighbours. A row outside the table is the end row, so that a
column is a sequence over all whole numbers, and the pieces of neighbouring segments meet.

Main definitions: `SampleArray.entry`, `SampleArray.InSegment`, `SampleArray.InterpolatesRows`.
Main statements: `SampleArray.linear_eq_curve`, `SampleArray.cubic_eq_curve`,
`SampleArray.row_kernels_interpolate`.
-/

namespace CommonLut

namespace SampleArray

open Set Exact

/-! ## §1 Positions -/

section

variable (points : ℕ) {x : ℝ}

theorem axisPlace_of_nonpos (hx : x ≤ 0) : axisPlace points x = 0 := by
  rw [axisPlace_eq, Scalar.unitClamp_eq, max_eq_left ((min_le_right 1 x).trans hx), zero_mul]

theorem axisPlace_of_one_le (hx : 1 ≤ x) : axisPlace points x = (points - 1 : ℕ) := by
  rw [axisPlace_eq, Scalar.unitClamp_eq, min_eq_left hx, max_eq_right zero_le_one, one_mul]

theorem axisPlace_of_mem (hx : x ∈ Icc (0 : ℝ) 1) : axisPlace points x = x * (points - 1 : ℕ) := by
  rw [axisPlace_eq, Scalar.unitClamp_of_mem hx]

theorem monotone_axisPlace : Monotone (axisPlace points : ℝ → ℝ) := by
  intro x y hxy
  rw [axisPlace_eq, axisPlace_eq]
  apply mul_le_mul_of_nonneg_right (Scalar.monotone_unitClamp hxy)
  exact Nat.cast_nonneg _

end

variable {ω : Type} (a : SampleArray ω)

/-- The row index of a position is its place on an axis with as many points as there are rows. -/
theorem rowIndex_eq (x : ℝ) : a.rowIndex x = axisPlace a.rows x := by
  have hlast : (0 : ℝ) ≤ (a.rows - 1 : ℕ) := Nat.cast_nonneg _
  -- The index is clamped after the position has been scaled, the place before.
  rw [axisPlace_eq, Scalar.unitClamp_eq, max_mul_of_nonneg _ _ hlast, min_mul_of_nonneg _ _ hlast,
    zero_mul, one_mul, max_min_distrib_left, max_eq_right hlast]
  rw [rowIndex, Scalar.atMost_eq, Scalar.atLeast_eq, decimal_zero]
  rfl

/-- A position lies between those of a row and of the next one. -/
structure InSegment (i : ℕ) (x : ℝ) : Prop where
  next_lt : i + 1 < a.rows
  le : (i : ℝ) / (a.rows - 1 : ℕ) ≤ x
  ge : x ≤ (i + 1 : ℕ) / (a.rows - 1 : ℕ)

/-- Every position of a table is between two rows. -/
theorem exists_inSegment (hrows : 2 ≤ a.rows) {x : ℝ} (hx : x ∈ Icc (0 : ℝ) 1) :
    ∃ i, a.InSegment i x := by
  have hsteps : (0 : ℝ) < (a.rows - 1 : ℕ) := by exact_mod_cast (by omega : 0 < a.rows - 1)
  rcases hx.2.lt_or_eq with hinside | rfl
  · have hplace : 0 ≤ x * (a.rows - 1 : ℕ) := mul_nonneg hx.1 hsteps.le
    have hlast : ⌊x * (a.rows - 1 : ℕ)⌋₊ < a.rows - 1 := by
      rw [Nat.floor_lt hplace]
      exact mul_lt_of_lt_one_left hsteps hinside
    refine ⟨⌊x * (a.rows - 1 : ℕ)⌋₊, Nat.add_lt_of_lt_sub hlast, ?_, ?_⟩
    · rw [div_le_iff₀ hsteps]
      exact Nat.floor_le hplace
    · rw [le_div_iff₀ hsteps, Nat.cast_succ]
      exact (Nat.lt_floor_add_one _).le
  -- The last position ends the last segment; no segment begins there.
  · have hend : a.rows - 2 + 1 = a.rows - 1 := by omega
    refine ⟨a.rows - 2, by omega, ?_, ?_⟩
    · rw [div_le_one hsteps]
      exact_mod_cast (by omega : a.rows - 2 ≤ a.rows - 1)
    · rw [hend, div_self hsteps.ne']

namespace InSegment

variable {a} {i : ℕ} {x : ℝ}

theorem steps_pos (h : a.InSegment i x) : (0 : ℝ) < (a.rows - 1 : ℕ) := by
  have hnext := h.next_lt
  exact_mod_cast (by omega : 0 < a.rows - 1)

theorem axisPlace_eq (h : a.InSegment i x) : axisPlace a.rows x = x * (a.rows - 1 : ℕ) := by
  have hnext : ((i + 1 : ℕ) : ℝ) ≤ (a.rows - 1 : ℕ) := by
    exact_mod_cast Nat.le_sub_one_of_lt h.next_lt
  apply axisPlace_of_mem
  constructor
  · exact (div_nonneg (Nat.cast_nonneg i) h.steps_pos.le).trans h.le
  · exact h.ge.trans ((div_le_one h.steps_pos).mpr hnext)

/-- How far a position is on the way to the next row. -/
theorem fraction_mem (h : a.InSegment i x) : x * (a.rows - 1 : ℕ) - i ∈ Icc (0 : ℝ) 1 := by
  have hlow := (div_le_iff₀ h.steps_pos).mp h.le
  have hhigh := (le_div_iff₀ h.steps_pos).mp h.ge
  push_cast at hhigh
  exact ⟨sub_nonneg.mpr hlow, sub_le_iff_le_add'.mpr hhigh⟩

/-- In a segment a curve follows the piece of its row. -/
theorem curve_eq (h : a.InSegment i x) {piece : ℤ → ℝ → ℝ} (hmeet : Segments.Meet piece) :
    Segments.curve piece (axisPlace a.rows x) = piece i (x * (a.rows - 1 : ℕ) - i) := by
  have hplace : x * (a.rows - 1 : ℕ) ∈ Icc ((i : ℤ) : ℝ) ((i : ℤ) + 1) := by
    rw [Int.cast_natCast]
    exact ⟨sub_nonneg.mp h.fraction_mem.1, sub_le_iff_le_add'.mp h.fraction_mem.2⟩
  rw [h.axisPlace_eq, hmeet.curve_eq hplace, Int.cast_natCast]

end InSegment

/-! ## §2 Rows -/

variable {a}

theorem clampRow_mono : Monotone a.clampRow := by
  intro k l hkl
  unfold clampRow
  omega

theorem clampRow_mem (hrows : 0 < a.rows) (k : ℤ) : a.clampRow k ∈ Iio a.rows := by
  rw [mem_Iio, clampRow]
  omega

theorem columns_pos (hrows : 0 < a.rows) : 0 < a.columns := by
  rw [Nat.pos_iff_ne_zero]
  intro hzero
  rw [rows, if_pos hzero] at hrows
  exact lt_irrefl 0 hrows

variable [Precision ω ℝ] (channel : ℕ)

variable (a) in
/-- The number in a row of the column that a channel reads: the last column serves the channels
after it. -/
noncomputable def entry (i : ℕ) : ℝ :=
  (a.values[i * a.columns + min channel (a.columns - 1)]?.map narrow).getD 0

/-- The sample of a row is there. -/
theorem getElem?_entry {i : ℕ} (hi : i < a.rows) :
    a.values[i * a.columns + min channel (a.columns - 1)]?.map narrow =
      some (a.entry channel i) := by
  have hcolumns : 0 < a.columns := columns_pos (Nat.zero_lt_of_lt hi)
  have hcolumn : min channel (a.columns - 1) < a.columns := by omega
  have hbound : i * a.columns + min channel (a.columns - 1) < a.values.size := by
    calc i * a.columns + min channel (a.columns - 1)
        < (i + 1) * a.columns := by rw [Nat.succ_mul]; omega
      _ ≤ a.rows * a.columns := Nat.mul_le_mul_right _ hi
      _ ≤ a.size := by
        rw [rows, if_neg hcolumns.ne']
        exact Nat.div_mul_le_self _ _
  rw [entry, Array.getElem?_eq_getElem hbound]
  rfl

theorem sample_eq_entry (hrows : 0 < a.rows) (k : ℤ) :
    a.sample k channel = a.entry channel (a.clampRow k) := by
  obtain ⟨x, hx, hvalue⟩ := Option.map_eq_some_iff.mp
    (getElem?_entry channel (clampRow_mem hrows k))
  rw [sample, if_neg hrows.ne', flat, channelColumn, hx, ← hvalue]
  rfl

theorem sample_of_lt {i : ℕ} (hi : i < a.rows) {k : ℤ} (hk : k = i) :
    a.sample k channel = a.entry channel i := by
  have hrow : a.clampRow k = i := by
    unfold clampRow
    omega
  rw [sample_eq_entry channel (Nat.zero_lt_of_lt hi), hrow]

/-- What holds of rows in their order holds of each sample and the next one, also past the ends. -/
theorem rel_sample {r : ℝ → ℝ → Prop} (hrows : 0 < a.rows)
    (h : ∀ i ∈ Iio a.rows, ∀ j ∈ Iio a.rows, i ≤ j → r (a.entry channel i) (a.entry channel j))
    (k : ℤ) : r (a.sample k channel) (a.sample (k + 1) channel) := by
  rw [sample_eq_entry channel hrows, sample_eq_entry channel hrows]
  apply h _ (clampRow_mem hrows k) _ (clampRow_mem hrows _)
  exact clampRow_mono (Int.le_add_one le_rfl)

/-! ## §3 The kernels as curves -/

/-- Cubic interpolation with its powers collected. -/
theorem catmullRom_eq (p₀ p₁ p₂ p₃ t : ℝ) :
    catmullRom p₀ p₁ p₂ p₃ t = p₁ + (p₂ - p₀) / 2 * t + (2 * p₀ - 5 * p₁ + 4 * p₂ - p₃) / 2 * t ^ 2 +
      (3 * p₁ - p₀ - 3 * p₂ + p₃) / 2 * t ^ 3 := by
  unfold catmullRom
  norm_num
  ring

theorem hasDerivAt_catmullRom (p₀ p₁ p₂ p₃ t : ℝ) :
    HasDerivAt (catmullRom p₀ p₁ p₂ p₃)
      ((p₂ - p₀) / 2 + (2 * p₀ - 5 * p₁ + 4 * p₂ - p₃) / 2 * (2 * t) +
        (3 * p₁ - p₀ - 3 * p₂ + p₃) / 2 * (3 * t ^ 2)) t := by
  have hline : HasDerivAt (fun t : ℝ => p₁ + (p₂ - p₀) / 2 * t) ((p₂ - p₀) / 2) t := by
    simpa using ((hasDerivAt_id t).const_mul ((p₂ - p₀) / 2)).const_add p₁
  have hsquare : HasDerivAt (fun t : ℝ => t ^ 2) (2 * t) t := by
    simpa using hasDerivAt_pow 2 t
  have hcube : HasDerivAt (fun t : ℝ => t ^ 3) (3 * t ^ 2) t := by
    simpa using hasDerivAt_pow 3 t
  rw [funext (catmullRom_eq p₀ p₁ p₂ p₃)]
  exact (hline.add (hsquare.const_mul _)).add (hcube.const_mul _)

section

variable (a)

/-- What runs between a row and the next one in linear interpolation. -/
noncomputable def linearPiece (k : ℤ) (t : ℝ) : ℝ :=
  Scalar.blend (a.sample k channel) (a.sample (k + 1) channel) t

/-- What runs between a row and the next one in cubic interpolation. -/
noncomputable def cubicPiece (k : ℤ) (t : ℝ) : ℝ :=
  catmullRom (a.sample (k - 1) channel) (a.sample k channel) (a.sample (k + 1) channel)
    (a.sample (k + 2) channel) t

/-- The slope of what runs between a row and the next one in cubic interpolation. -/
noncomputable def cubicSlope (k : ℤ) (t : ℝ) : ℝ :=
  deriv (a.cubicPiece channel k) t

/-- Linear interpolation reads only one row where the fraction is zero, without any difference. -/
theorem linear_eq_curve (x : ℝ) :
    a.linear x channel = Segments.curve (a.linearPiece channel) (axisPlace a.rows x) := by
  simp only [linear, Scalar.toInt_floor, rowIndex_eq]
  show (if (Int.fract (axisPlace a.rows x) == 0.0) = true then _ else _) = _
  split_ifs with hzero
  · have hfract : Int.fract (axisPlace a.rows x) = 0 := by
      rwa [beq_iff_eq, decimal_zero] at hzero
    rw [Segments.curve, linearPiece, hfract, Scalar.blend_eq, zero_mul, add_zero]
  · rfl

theorem cubic_eq_curve (hrows : 3 ≤ a.rows) (x : ℝ) :
    a.cubic x channel = Segments.curve (a.cubicPiece channel) (axisPlace a.rows x) := by
  rw [cubic, if_neg (by omega)]
  simp only [Scalar.toInt_floor, rowIndex_eq]
  rfl

theorem linearPiece_zero (k : ℤ) : a.linearPiece channel k 0 = a.sample k channel := by
  rw [linearPiece, Scalar.blend_eq, zero_mul, add_zero]

theorem meet_linearPiece : Segments.Meet (a.linearPiece channel) := by
  intro k
  rw [linearPiece_zero, linearPiece, Scalar.blend_eq, one_mul, add_sub_cancel]

theorem continuous_linearPiece (k : ℤ) : Continuous (a.linearPiece channel k) := by
  unfold linearPiece Scalar.blend
  fun_prop

theorem cubicPiece_zero (k : ℤ) : a.cubicPiece channel k 0 = a.sample k channel := by
  rw [cubicPiece, catmullRom_eq]
  ring

theorem meet_cubicPiece : Segments.Meet (a.cubicPiece channel) := by
  intro k
  rw [cubicPiece_zero, cubicPiece, catmullRom_eq]
  ring

theorem continuous_cubicPiece (k : ℤ) : Continuous (a.cubicPiece channel k) := by
  unfold cubicPiece catmullRom
  fun_prop

theorem cubicSlope_eq (k : ℤ) (t : ℝ) :
    let p₀ : ℝ := a.sample (k - 1) channel
    let p₁ : ℝ := a.sample k channel
    let p₂ : ℝ := a.sample (k + 1) channel
    let p₃ : ℝ := a.sample (k + 2) channel
    a.cubicSlope channel k t = (p₂ - p₀) / 2 + (2 * p₀ - 5 * p₁ + 4 * p₂ - p₃) / 2 * (2 * t) +
      (3 * p₁ - p₀ - 3 * p₂ + p₃) / 2 * (3 * t ^ 2) :=
  (hasDerivAt_catmullRom _ _ _ _ t).deriv

/-- At a row the slope from either side is that of the chord between the neighbours of the row. -/
theorem meet_cubicSlope : Segments.Meet (a.cubicSlope channel) := by
  intro k
  have hprevious : k + 1 - 1 = k := by ring
  have hnext : k + 1 + 1 = k + 2 := by ring
  rw [cubicSlope_eq, cubicSlope_eq, hprevious, hnext]
  ring

theorem continuous_cubicSlope (k : ℤ) : Continuous (a.cubicSlope channel k) := by
  rw [funext (a.cubicSlope_eq channel k)]
  fun_prop

theorem contDiff_cubicCurve : ContDiff ℝ 1 (Segments.curve (a.cubicPiece channel)) := by
  have hderiv : ∀ k t, HasDerivAt (a.cubicPiece channel k) (a.cubicSlope channel k t) t := by
    intro k t
    exact (hasDerivAt_catmullRom _ _ _ _ t).differentiableAt.hasDerivAt
  exact Segments.contDiff_curve hderiv (a.meet_cubicPiece channel)
    (a.continuous_cubicSlope channel) (a.meet_cubicSlope channel)

end

/-! ## §4 What both kernels do -/

variable (a) in
/-- What a kernel does that interpolates the rows of a table in a channel. -/
structure InterpolatesRows (kernel : ℝ → ℝ) : Prop where
  /-- At the position of a row it gives the row. -/
  at_rows : ∀ i < a.rows, kernel (i / (a.rows - 1 : ℕ)) = a.entry channel i
  before : ∀ x ≤ 0, kernel x = a.entry channel 0
  after : ∀ x, 1 ≤ x → kernel x = a.entry channel (a.rows - 1)
  continuous : Continuous kernel

variable {channel}

/-- A curve whose pieces begin at the rows and meet interpolates them. -/
theorem interpolatesRows_curve (hrows : 0 < a.rows) {piece : ℤ → ℝ → ℝ}
    (hbegin : ∀ k, piece k 0 = a.sample k channel) (hmeet : Segments.Meet piece)
    (hcontinuous : ∀ k, Continuous (piece k)) :
    a.InterpolatesRows channel fun x => Segments.curve piece (axisPlace a.rows x) := by
  have hrow : ∀ i < a.rows, Segments.curve piece i = a.entry channel i := by
    intro i hi
    rw [← Int.cast_natCast, Segments.curve_intCast, hbegin, sample_of_lt channel hi rfl]
  constructor
  · intro i hi
    have hstands : StandsAt a.rows i (i / (a.rows - 1 : ℕ)) := ⟨hi, .inr rfl⟩
    rw [hstands.axisPlace_eq, hrow i hi]
  · intro x hx
    rw [axisPlace_of_nonpos _ hx, ← Nat.cast_zero, hrow 0 hrows]
  · intro x hx
    rw [axisPlace_of_one_le _ hx, hrow _ (Nat.sub_one_lt hrows.ne')]
  · exact (Segments.continuous_curve hcontinuous hmeet).comp (continuous_axisPlace _)

theorem interpolatesRows_linear (hrows : 0 < a.rows) :
    a.InterpolatesRows channel fun x => a.linear x channel := by
  rw [funext (a.linear_eq_curve channel)]
  exact interpolatesRows_curve hrows (a.linearPiece_zero channel) (a.meet_linearPiece channel)
    (a.continuous_linearPiece channel)

theorem interpolatesRows_cubic (hrows : 0 < a.rows) :
    a.InterpolatesRows channel fun x => a.cubic x channel := by
  rcases Nat.lt_or_ge a.rows 3 with hfew | hmany
  -- A table of fewer than three rows is interpolated linearly.
  · have heq : (fun x => (a.cubic x channel : ℝ)) = fun x => a.linear x channel :=
      funext fun x => if_pos hfew
    rw [heq]
    exact interpolatesRows_linear hrows
  · rw [funext (a.cubic_eq_curve channel hmany)]
    exact interpolatesRows_curve hrows (a.cubicPiece_zero channel) (a.meet_cubicPiece channel)
      (a.continuous_cubicPiece channel)

/-! ## §5 What each of them does on its own -/

theorem linear_of_inSegment {i : ℕ} {x : ℝ} (h : a.InSegment i x) :
    a.linear x channel = a.entry channel i +
      (x * (a.rows - 1 : ℕ) - i) * (a.entry channel (i + 1) - a.entry channel i) := by
  rw [linear_eq_curve, h.curve_eq (a.meet_linearPiece channel), linearPiece, Scalar.blend_eq,
    sample_of_lt channel (Nat.lt_of_succ_lt h.next_lt) rfl,
    sample_of_lt channel h.next_lt (Nat.cast_succ i).symm]

theorem linear_mem {i : ℕ} {x : ℝ} (h : a.InSegment i x) :
    a.linear x channel ∈ uIcc (a.entry channel i) (a.entry channel (i + 1)) := by
  rw [linear_of_inSegment h]
  exact (convex_uIcc _ _).add_smul_sub_mem left_mem_uIcc right_mem_uIcc h.fraction_mem

theorem monotone_linear (hrows : 0 < a.rows) (h : MonotoneOn (a.entry channel) (Iio a.rows)) :
    Monotone fun x => (a.linear x channel : ℝ) := by
  rw [funext (a.linear_eq_curve channel)]
  refine (Segments.monotone_curve (fun k => ?_) (a.meet_linearPiece channel)).comp
    (monotone_axisPlace _)
  intro t _ t' _ htt'
  have hstep : (a.sample k channel : ℝ) ≤ a.sample (k + 1) channel :=
    rel_sample channel hrows (fun i hi j hj => h hi hj) k
  rw [linearPiece, linearPiece, Scalar.blend_eq, Scalar.blend_eq]
  exact add_le_add_right (mul_le_mul_of_nonneg_right htt' (sub_nonneg.mpr hstep)) _

theorem antitone_linear (hrows : 0 < a.rows) (h : AntitoneOn (a.entry channel) (Iio a.rows)) :
    Antitone fun x => (a.linear x channel : ℝ) := by
  rw [funext (a.linear_eq_curve channel)]
  refine (Segments.antitone_curve (fun k => ?_) (a.meet_linearPiece channel)).comp_monotone
    (monotone_axisPlace _)
  intro t _ t' _ htt'
  have hstep : (a.sample (k + 1) channel : ℝ) ≤ a.sample k channel :=
    rel_sample (r := fun p q => q ≤ p) channel hrows (fun i hi j hj => h hi hj) k
  rw [linearPiece, linearPiece, Scalar.blend_eq, Scalar.blend_eq]
  exact add_le_add_right (mul_le_mul_of_nonpos_right htt' (sub_nonpos.mpr hstep)) _

theorem contDiffOn_cubic (hrows : 3 ≤ a.rows) :
    ContDiffOn ℝ 1 (fun x => (a.cubic x channel : ℝ)) (Ioo 0 1) := by
  have hscaled : ContDiff ℝ 1 fun x : ℝ =>
      Segments.curve (a.cubicPiece channel) (x * (a.rows - 1 : ℕ)) :=
    (a.contDiff_cubicCurve channel).comp (contDiff_id.mul contDiff_const)
  apply hscaled.contDiffOn.congr
  intro x hx
  rw [cubic_eq_curve a channel hrows, axisPlace_of_mem _ (Ioo_subset_Icc_self hx)]

/-- Where the four rows around a segment are affine in their index, so is cubic interpolation. -/
theorem cubic_of_affine {i : ℕ} {x c d : ℝ} (h : a.InSegment i x) (hfirst : 0 < i)
    (hlast : i + 2 < a.rows)
    (haffine : ∀ j ∈ Icc (i - 1) (i + 2), a.entry channel j = c + d * j) :
    a.cubic x channel = c + d * (x * (a.rows - 1 : ℕ)) := by
  have hrow : ∀ (k : ℤ) (j : ℕ), k = j → j ∈ Icc (i - 1) (i + 2) →
      (a.sample k channel : ℝ) = c + d * k := by
    intro k j hk hj
    rw [sample_of_lt channel (hj.2.trans_lt hlast) hk, haffine j hj, hk, Int.cast_natCast]
  rw [cubic_eq_curve a channel (by omega), h.curve_eq (a.meet_cubicPiece channel), cubicPiece,
    catmullRom_eq, hrow (i - 1) (i - 1) (by omega) (by grind), hrow i i rfl (by grind),
    hrow (i + 1) (i + 1) rfl (by grind), hrow (i + 2) (i + 2) rfl (by grind)]
  push_cast
  ring

/-- In exact arithmetic both kernels interpolate the rows of a table, in every channel: they give
back each row at its position and the end rows outside, and are continuous. Every position is
between two rows; linear interpolation stays between them and is monotone where the rows are. Cubic
interpolation has a continuous slope, is linear for fewer than three rows, and continues rows that
are affine in the index on the segments that touch no end row. -/
theorem row_kernels_interpolate (a : SampleArray ω) (hrows : 2 ≤ a.rows) (channel : ℕ) :
    (∀ i < a.rows, a.values[i * a.columns + min channel (a.columns - 1)]?.map narrow =
      some (a.entry channel i)) ∧
    a.InterpolatesRows channel (fun x => a.linear x channel) ∧
    a.InterpolatesRows channel (fun x => a.cubic x channel) ∧
    (∀ x ∈ Icc (0 : ℝ) 1, ∃ i, a.InSegment i x) ∧
    (∀ i x, a.InSegment i x →
      a.linear x channel ∈ uIcc (a.entry channel i) (a.entry channel (i + 1))) ∧
    (MonotoneOn (a.entry channel) (Iio a.rows) → Monotone fun x => (a.linear x channel : ℝ)) ∧
    (AntitoneOn (a.entry channel) (Iio a.rows) → Antitone fun x => (a.linear x channel : ℝ)) ∧
    (3 ≤ a.rows → ContDiffOn ℝ 1 (fun x => (a.cubic x channel : ℝ)) (Ioo 0 1)) ∧
    (a.rows < 3 → ∀ x : ℝ, a.cubic x channel = a.linear x channel) ∧
    ∀ i x c d, a.InSegment i x → 0 < i → i + 2 < a.rows →
      (∀ j ∈ Icc (i - 1) (i + 2), a.entry channel j = c + d * j) →
      a.cubic x channel = c + d * (x * (a.rows - 1 : ℕ)) := by
  have hpos : 0 < a.rows := by omega
  refine ⟨fun i hi => getElem?_entry channel hi, interpolatesRows_linear hpos,
    interpolatesRows_cubic hpos, fun x hx => a.exists_inSegment hrows hx,
    fun i x h => linear_mem h, monotone_linear hpos, antitone_linear hpos, contDiffOn_cubic, ?_, ?_⟩
  · intro hfew x
    exact if_pos hfew
  · intro i x c d h hfirst hlast haffine
    exact cubic_of_affine h hfirst hlast haffine

/-- Four rows that rise in the first channel and fall in the second one. -/
noncomputable def stairs : SampleArray ℝ where
  dims := [4, 2]
  values := #[1.0, 7.0, 3.0, 5.0, 5.0, 3.0, 7.0, 1.0]

theorem rows_stairs : stairs.rows = 4 := rfl

theorem entry_stairs {i : ℕ} (hi : i < 4) :
    stairs.entry 0 i = 1 + 2 * i ∧ stairs.entry 1 i = 7 - 2 * i := by
  have hcolumns : stairs.columns = 2 := rfl
  unfold entry
  rw [hcolumns]
  interval_cases i <;> constructor <;> simp [stairs, narrow] <;> norm_num

-- The segment in the middle touches no end row, and each channel has its own direction.
theorem row_kernels_interpolate_stairs :
    2 ≤ stairs.rows ∧ stairs.InSegment 1 (1 / 2) ∧
    stairs.linear (1 / 3 : ℝ) 1 = 5 ∧ stairs.cubic (1 / 3 : ℝ) 1 = 5 ∧
    stairs.linear (1 / 2 : ℝ) 0 ∈ uIcc (3 : ℝ) 5 ∧ stairs.cubic (1 / 2 : ℝ) 0 = 4 ∧
    (Monotone fun x => (stairs.linear x 0 : ℝ)) ∧ (Antitone fun x => (stairs.linear x 1 : ℝ)) ∧
    ContDiffOn ℝ 1 (fun x => (stairs.cubic x 0 : ℝ)) (Ioo 0 1) := by
  have hrows : 2 ≤ stairs.rows := by decide
  have hsegment : stairs.InSegment 1 (1 / 2) := by
    constructor <;> rw [rows_stairs] <;> norm_num
  have hrising : MonotoneOn (stairs.entry 0) (Iio stairs.rows) := by
    intro i hi j hj hij
    have hij' : (i : ℝ) ≤ j := Nat.cast_le.mpr hij
    rw [(entry_stairs hi).1, (entry_stairs hj).1]
    linarith
  have hfalling : AntitoneOn (stairs.entry 1) (Iio stairs.rows) := by
    intro i hi j hj hij
    have hij' : (i : ℝ) ≤ j := Nat.cast_le.mpr hij
    rw [(entry_stairs hi).2, (entry_stairs hj).2]
    linarith
  obtain ⟨-, -, -, -, hbetween, hmonotone, -, hsmooth, -, haffine⟩ :=
    row_kernels_interpolate stairs hrows 0
  obtain ⟨-, hlinear, hcubic, -, -, -, hantitone, -⟩ := row_kernels_interpolate stairs hrows 1
  have hplace : ((1 : ℕ) : ℝ) / (stairs.rows - 1 : ℕ) = 1 / 3 := by
    rw [rows_stairs]
    norm_num
  have hsecond : stairs.entry 1 1 = 5 := by
    rw [(entry_stairs (by decide)).2]
    norm_num
  have hinside : uIcc (stairs.entry 0 1) (stairs.entry 0 (1 + 1)) = uIcc 3 5 := by
    rw [(entry_stairs (by decide)).1, (entry_stairs (by decide)).1]
    norm_num
  refine ⟨hrows, hsegment, ?_, ?_, ?_, ?_, hmonotone hrising, hantitone hfalling,
    hsmooth (by decide)⟩
  · rw [← hplace, ← hsecond]
    exact hlinear.at_rows 1 (by decide)
  · rw [← hplace, ← hsecond]
    exact hcubic.at_rows 1 (by decide)
  · rw [← hinside]
    exact hbetween 1 _ hsegment
  · rw [haffine 1 _ 1 2 hsegment (by decide) (by decide) fun j hj => (entry_stairs (by grind)).1,
      rows_stairs]
    norm_num

end SampleArray

end CommonLut
