import Mathlib

/-!
# Curves made of segments

A one-dimensional kernel finds the segment between two rows by the whole part of an index and runs
through it by the fraction. Such a curve has one piece for each whole number. Where each piece ends
at the value at which the next one begins, the curve is continuous, and it follows its pieces on
closed segments; where the slopes meet as well, it is continuously differentiable; and it rises
where all of its pieces do.

Main definitions: `Segments.curve`, `Segments.Meet`.
Main statements: `Segments.continuous_curve`, `Segments.contDiff_curve`, `Segments.monotone_curve`.
-/

namespace CommonLut.Segments

open Set Topology

/-! ## §1 Pieces -/

/-- The curve whose piece on the segment from a whole number to the next one is given as a function
of the fraction. -/
noncomputable def curve (piece : ℤ → ℝ → ℝ) (x : ℝ) : ℝ := piece ⌊x⌋ (Int.fract x)

/-- Each piece ends at the value at which the next one begins. -/
def Meet (piece : ℤ → ℝ → ℝ) : Prop := ∀ k, piece k 1 = piece (k + 1) 0

variable {piece slope : ℤ → ℝ → ℝ}

@[simp] theorem curve_intCast (k : ℤ) : curve piece k = piece k 0 := by
  rw [curve, Int.floor_intCast, Int.fract_intCast]

/-- The curve follows a piece up to its end, where the next one has taken over. -/
theorem Meet.curve_eq (h : Meet piece) {k : ℤ} {x : ℝ} (hx : x ∈ Icc (k : ℝ) (k + 1)) :
    curve piece x = piece k (x - k) := by
  rcases hx.2.lt_or_eq with hinside | rfl
  · have hfloor : ⌊x⌋ = k := Int.floor_eq_iff.mpr ⟨hx.1, hinside⟩
    rw [curve, Int.fract, hfloor]
  -- At the end the whole part belongs to the next segment already.
  · have hfloor : ⌊(k : ℝ) + 1⌋ = k + 1 := by simp
    have hfract : Int.fract ((k : ℝ) + 1) = 0 := by simp
    rw [curve, hfloor, hfract, add_sub_cancel_left, h k]

/-- A place has a segment to its left and one to its right; both are the same inside a segment. -/
theorem exists_segments (x : ℝ) :
    ∃ k l : ℤ, Icc (k : ℝ) (k + 1) ∈ 𝓝[≤] x ∧ Icc (l : ℝ) (l + 1) ∈ 𝓝[≥] x := by
  refine ⟨⌈x⌉ - 1, ⌊x⌋, ?_, ?_⟩
  · apply Icc_mem_nhdsLE_of_mem
    push_cast
    exact ⟨by linarith [Int.ceil_lt_add_one x], by linarith [Int.le_ceil x]⟩
  · apply Icc_mem_nhdsGE_of_mem
    exact ⟨Int.floor_le x, Int.lt_floor_add_one x⟩

/-! ## §2 Continuity and slope -/

theorem continuous_curve (hpiece : ∀ k, Continuous (piece k)) (h : Meet piece) :
    Continuous (curve piece) := by
  have hon : ∀ k : ℤ, ContinuousOn (curve piece) (Icc (k : ℝ) (k + 1)) := by
    intro k
    have hshifted : Continuous fun x : ℝ => piece k (x - k) :=
      (hpiece k).comp (continuous_id.sub continuous_const)
    exact hshifted.continuousOn.congr fun x hx => h.curve_eq hx
  rw [continuous_iff_continuousAt]
  intro x
  obtain ⟨k, l, hleft, hright⟩ := exists_segments x
  rw [continuousAt_iff_continuous_left_right]
  constructor
  · exact (hon k x (mem_of_mem_nhdsWithin self_mem_Iic hleft)).mono_of_mem_nhdsWithin hleft
  · exact (hon l x (mem_of_mem_nhdsWithin self_mem_Ici hright)).mono_of_mem_nhdsWithin hright

theorem hasDerivAt_curve (hpiece : ∀ k t, HasDerivAt (piece k) (slope k t) t) (h : Meet piece)
    (hslope : Meet slope) (x : ℝ) : HasDerivAt (curve piece) (curve slope x) x := by
  -- On every closed segment the slope of its piece counts, also at the ends of the segment.
  have hon : ∀ k : ℤ, x ∈ Icc (k : ℝ) (k + 1) →
      HasDerivWithinAt (curve piece) (curve slope x) (Icc (k : ℝ) (k + 1)) x := by
    intro k hx
    rw [hslope.curve_eq hx]
    have hshifted := (hpiece k (x - k)).comp_sub_const x (k : ℝ)
    exact hshifted.hasDerivWithinAt.congr (fun y hy => h.curve_eq hy) (h.curve_eq hx)
  obtain ⟨k, l, hleft, hright⟩ := exists_segments x
  have hbelow : HasDerivWithinAt (curve piece) (curve slope x) (Iic x) x :=
    (hon k (mem_of_mem_nhdsWithin self_mem_Iic hleft)).mono_of_mem_nhdsWithin hleft
  have habove : HasDerivWithinAt (curve piece) (curve slope x) (Ici x) x :=
    (hon l (mem_of_mem_nhdsWithin self_mem_Ici hright)).mono_of_mem_nhdsWithin hright
  rw [← hasDerivWithinAt_univ, ← Iic_union_Ici]
  exact hbelow.union habove

theorem contDiff_curve (hpiece : ∀ k t, HasDerivAt (piece k) (slope k t) t) (h : Meet piece)
    (hcontinuous : ∀ k, Continuous (slope k)) (hslope : Meet slope) :
    ContDiff ℝ 1 (curve piece) := by
  have hderiv := hasDerivAt_curve hpiece h hslope
  rw [contDiff_one_iff_deriv]
  constructor
  · intro x
    exact (hderiv x).differentiableAt
  · rw [funext fun x => (hderiv x).deriv]
    exact continuous_curve hcontinuous hslope

/-! ## §3 Order -/

theorem monotone_curve (hpiece : ∀ k, MonotoneOn (piece k) (Icc 0 1)) (h : Meet piece) :
    Monotone (curve piece) := by
  have hzero : (0 : ℝ) ∈ Icc (0 : ℝ) 1 := ⟨le_rfl, zero_le_one⟩
  have hone : (1 : ℝ) ∈ Icc (0 : ℝ) 1 := ⟨zero_le_one, le_rfl⟩
  have hfract : ∀ x : ℝ, Int.fract x ∈ Icc (0 : ℝ) 1 := fun x =>
    ⟨Int.fract_nonneg x, (Int.fract_lt_one x).le⟩
  have hbegin : Monotone fun k => piece k 0 := by
    apply monotone_int_of_le_succ
    intro k
    rw [← h k]
    exact hpiece k hzero hone zero_le_one
  intro x y hxy
  rcases (Int.floor_le_floor hxy).eq_or_lt with hsame | hlater
  · unfold curve
    rw [← hsame]
    apply hpiece _ (hfract x) (hfract y)
    rw [Int.fract, Int.fract, ← hsame]
    linarith
  -- The smaller place is before the end of its segment, the larger one after the start of its own.
  · calc curve piece x
        ≤ piece ⌊x⌋ 1 := hpiece _ (hfract x) hone (hfract x).2
      _ = piece (⌊x⌋ + 1) 0 := h _
      _ ≤ piece ⌊y⌋ 0 := hbegin hlater
      _ ≤ curve piece y := hpiece _ hzero (hfract y) (hfract y).1

theorem antitone_curve (hpiece : ∀ k, AntitoneOn (piece k) (Icc 0 1)) (h : Meet piece) :
    Antitone (curve piece) := by
  have hreflected : Monotone (curve fun k t => -piece k t) :=
    monotone_curve (fun k => (hpiece k).neg) fun k => congrArg Neg.neg (h k)
  intro x y hxy
  exact neg_le_neg_iff.mp (hreflected hxy)

end CommonLut.Segments
