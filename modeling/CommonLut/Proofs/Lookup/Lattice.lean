import Mathlib.Data.Fintype.Perm
import Mathlib.Tactic.Module
import CommonLut.Lookup.Lattice
import CommonLut.Proofs.Exact

/-!
# Lattice interpolation in exact arithmetic

A colour falls into a cell of the lattice, at a fraction of the way on each axis. Both kernels are
read here as one inclusion–exclusion sum over the corners of that cell: the weight of a set of axes
is the product of their fractions for the trilinear kernel and their minimum for the tetrahedral
one. A minimum does not say which of the six tetrahedra was chosen, so every order of the axes that
sorts the fractions gives the same walk, at ties too.

The tetrahedral kernel is also a sum over all lattice points, each weighted by a tent around it.
Tents are continuous, so the kernel is.

Main definitions: `SampleArray.cells`, `SampleArray.cellCorner`, `SampleArray.spread`,
`SampleArray.tent`.
Main statements: `SampleArray.trilinear_eq_spread`, `SampleArray.tetrahedral_eq_spread`,
`SampleArray.tetrahedral_eq_sum_tents`, `SampleArray.tetrahedral_any_sorting_and_continuous`.
-/

namespace CommonLut

namespace SampleArray

open scoped Exact

/-! ## §1 Colours -/

theorem blendColors_eq (p q : Triple ℝ) (t : ℝ) : blendColors p q t = p + t • (q - p) := by
  simp [blendColors, Triple.map₂, Scalar.blend_eq, Prod.ext_iff]

theorem walk_eq (c₀ c₁ c₂ c₃ : Triple ℝ) (t₁ t₂ t₃ : ℝ) :
    walk c₀ c₁ c₂ c₃ t₁ t₂ t₃ = c₀ + t₁ • (c₁ - c₀) + t₂ • (c₂ - c₁) + t₃ • (c₃ - c₂) := by
  simp [walk, Prod.ext_iff]

/-! ## §2 Places and cells -/

section

variable (points : ℕ) (x : ℝ)

theorem axisPlace_eq : axisPlace points x = Scalar.unitClamp x * (points - 1 : ℕ) := rfl

theorem axisPlace_mem : axisPlace points x ∈ Set.Icc (0 : ℝ) (points - 1 : ℕ) := by
  obtain ⟨hlow, hhigh⟩ := Scalar.unitClamp_mem x
  have hlast : (0 : ℝ) ≤ (points - 1 : ℕ) := Nat.cast_nonneg _
  exact ⟨mul_nonneg hlow hlast, mul_le_of_le_one_left hlast hhigh⟩

theorem axisPlace_unitClamp : axisPlace points (Scalar.unitClamp x) = axisPlace points x := by
  rw [axisPlace_eq, Scalar.unitClamp_unitClamp, axisPlace_eq]

theorem continuous_axisPlace : Continuous (axisPlace points : ℝ → ℝ) :=
  Scalar.continuous_unitClamp.mul continuous_const

theorem cell_eq : cell points x = (⌊axisPlace points x⌋, Int.fract (axisPlace points x)) :=
  Prod.ext (Scalar.toInt_floor _) rfl

theorem cell_mem : (cell points x).1 ∈ Set.Icc (0 : ℤ) (points - 1 : ℕ) := by
  obtain ⟨hlow, hhigh⟩ := axisPlace_mem points x
  rw [cell_eq]
  exact ⟨Int.floor_nonneg.mpr hlow, Int.floor_le_iff.mpr (lt_of_le_of_lt hhigh (by simp))⟩

theorem fraction_mem : (cell points x).2 ∈ Set.Ico (0 : ℝ) 1 := by
  rw [cell_eq]
  exact ⟨Int.fract_nonneg _, Int.fract_lt_one _⟩

end

section

variable {ω : Type} (a : SampleArray ω) (p : Triple ℝ)

/-- The cell of a colour and the fraction inside it, for each axis. -/
noncomputable def cells (m : Fin 3) : ℤ × ℝ :=
  ![cell a.axes.1 p.1, cell a.axes.2.1 p.2.1, cell a.axes.2.2 p.2.2] m

/-- The fractions of a colour inside its cell. -/
noncomputable def fractions (m : Fin 3) : ℝ := (a.cells p m).2

theorem fractions_mem (m : Fin 3) : a.fractions p m ∈ Set.Ico (0 : ℝ) 1 := by
  fin_cases m <;> exact fraction_mem _ _

variable [Precision ω ℝ]

/-- The corner of the cell of a colour that is one point further on some of the axes. -/
noncomputable def cellCorner (further : Finset (Fin 3)) : Triple ℝ :=
  let index (m : Fin 3) : ℤ := (a.cells p m).1 + if m ∈ further then 1 else 0
  a.corner (index 0) (index 1) (index 2)

end

/-! ## §3 Inclusion and exclusion -/

/-- What the corners of a cube add up to when each set of axes has the meet of its fractions as
weight. -/
noncomputable def spread (meet : ℝ → ℝ → ℝ) (c : Finset (Fin 3) → Triple ℝ) (f : Fin 3 → ℝ) :
    Triple ℝ :=
  c ∅ + f 0 • (c {0} - c ∅) + f 1 • (c {1} - c ∅) + f 2 • (c {2} - c ∅) +
    meet (f 0) (f 1) • (c {0, 1} - c {0} - c {1} + c ∅) +
    meet (f 0) (f 2) • (c {0, 2} - c {0} - c {2} + c ∅) +
    meet (f 1) (f 2) • (c {1, 2} - c {1} - c {2} + c ∅) +
    meet (f 0) (meet (f 1) (f 2)) •
      (c Finset.univ - c {0, 1} - c {0, 2} - c {1, 2} + c {0} + c {1} + c {2} - c ∅)

/-- The minimum form is a walk from the near corner to the far one, along the axis of the largest
fraction first, for every way to sort the fractions. -/
theorem spread_min_eq_walk {f : Fin 3 → ℝ} {s : Equiv.Perm (Fin 3)} (hs : Antitone (f ∘ s))
    (c : Finset (Fin 3) → Triple ℝ) :
    spread min c f =
      walk (c ∅) (c {s 0}) (c {s 0, s 1}) (c Finset.univ) (f (s 0)) (f (s 1)) (f (s 2)) := by
  have hall : ∀ s : Equiv.Perm (Fin 3), (s 0, s 1, s 2) ∈
      [(0, 1, 2), (0, 2, 1), (1, 0, 2), (1, 2, 0), (2, 0, 1), (2, 1, 0)] := by decide
  have hfirst : f (s 1) ≤ f (s 0) := hs (by decide : (0 : Fin 3) ≤ 1)
  have hsecond : f (s 2) ≤ f (s 1) := hs (by decide : (1 : Fin 3) ≤ 2)
  have horder := hall s
  rw [walk_eq]
  generalize s 0 = x, s 1 = y, s 2 = z at *
  simp only [List.mem_cons, Prod.mk.injEq, List.not_mem_nil, or_false] at horder
  obtain ⟨rfl, rfl, rfl⟩ | ⟨rfl, rfl, rfl⟩ | ⟨rfl, rfl, rfl⟩ | ⟨rfl, rfl, rfl⟩ | ⟨rfl, rfl, rfl⟩ |
    ⟨rfl, rfl, rfl⟩ := horder
  all_goals
    simp only [spread, min_eq_left, min_eq_right, hfirst, hsecond, hsecond.trans hfirst,
      Finset.pair_comm (1 : Fin 3) 0, Finset.pair_comm (2 : Fin 3) 0,
      Finset.pair_comm (2 : Fin 3) 1]
    module

variable {ω : Type} [Precision ω ℝ] (a : SampleArray ω) (p : Triple ℝ)

theorem trilinear_eq_blends :
    a.trilinear p =
      blendColors
        (blendColors
          (blendColors (a.cellCorner p ∅) (a.cellCorner p {2}) (a.fractions p 2))
          (blendColors (a.cellCorner p {1}) (a.cellCorner p {1, 2}) (a.fractions p 2))
          (a.fractions p 1))
        (blendColors
          (blendColors (a.cellCorner p {0}) (a.cellCorner p {0, 2}) (a.fractions p 2))
          (blendColors (a.cellCorner p {0, 1}) (a.cellCorner p Finset.univ) (a.fractions p 2))
          (a.fractions p 1))
        (a.fractions p 0) := by
  simp [trilinear, cellCorner, fractions, cells]

theorem trilinear_eq_spread :
    a.trilinear p = spread (· * ·) (a.cellCorner p) (a.fractions p) := by
  simp only [trilinear_eq_blends, blendColors_eq, spread]
  module

theorem tetrahedral_eq_spread :
    a.tetrahedral p = spread min (a.cellCorner p) (a.fractions p) := by
  simp only [tetrahedral, spread, walk_eq, cellCorner, fractions, cells, add_zero, Fin.isValue,
    Matrix.cons_val_zero, Matrix.cons_val_one, Matrix.cons_val, Finset.notMem_empty,
    Finset.mem_singleton, Finset.mem_insert, Finset.mem_univ, Fin.reduceEq, zero_ne_one,
    one_ne_zero, or_false, or_true, or_self, ↓reduceIte]
  generalize (cell a.axes.1 p.1).2 = u, (cell a.axes.2.1 p.2.1).2 = v, (cell a.axes.2.2 p.2.2).2 = w
  -- One case for each order of the fractions, in which every minimum is one of them.
  split_ifs with huv hvw huw hvw huw
  · rw [min_eq_right huv.le, min_eq_right hvw.le, min_eq_right (hvw.trans huv).le]
    module
  · rw [min_eq_right huv.le, min_eq_left (not_lt.mp hvw), min_eq_right huw.le, min_eq_right huv.le]
    module
  · rw [min_eq_right huv.le, min_eq_left (not_lt.mp hvw), min_eq_left (not_lt.mp huw),
      min_eq_right huv.le]
    module
  · rw [min_eq_left (not_lt.mp huv), min_eq_right hvw.le, min_eq_right huw.le]
    module
  · rw [min_eq_left (not_lt.mp huv), min_eq_right hvw.le, min_eq_left (not_lt.mp huw)]
    module
  · rw [min_eq_left (not_lt.mp huv), min_eq_left (not_lt.mp hvw),
      min_eq_left ((not_lt.mp huv).trans (not_lt.mp hvw)), min_eq_left (not_lt.mp huv)]
    module

/-! ## §4 Tents -/

/-- The weight that a lattice point has at an offset: one at the point itself, and falling to zero
at its neighbours along each axis and along each diagonal that runs up or down on all axes. -/
noncomputable def tent (u v w : ℝ) : ℝ :=
  max 0 (1 + min 0 (min u (min v w)) - max 0 (max u (max v w)))

theorem tent_eq_zero {u v w : ℝ} (h : 1 ≤ |u| ∨ 1 ≤ |v| ∨ 1 ≤ |w|) : tent u v w = 0 := by
  unfold tent
  grind [abs_eq_max_neg]

theorem sum_tents (c : Finset (Fin 3) → Triple ℝ) {f : Fin 3 → ℝ}
    (hf : ∀ m, f m ∈ Set.Icc (0 : ℝ) 1) :
    spread min c f =
      tent (f 0) (f 1) (f 2) • c ∅ + tent (f 0) (f 1) (f 2 - 1) • c {2} +
      (tent (f 0) (f 1 - 1) (f 2) • c {1} + tent (f 0) (f 1 - 1) (f 2 - 1) • c {1, 2}) +
      (tent (f 0 - 1) (f 1) (f 2) • c {0} + tent (f 0 - 1) (f 1) (f 2 - 1) • c {0, 2} +
        (tent (f 0 - 1) (f 1 - 1) (f 2) • c {0, 1} +
          tent (f 0 - 1) (f 1 - 1) (f 2 - 1) • c Finset.univ)) := by
  obtain ⟨hu₀, hu₁⟩ := hf 0
  obtain ⟨hv₀, hv₁⟩ := hf 1
  obtain ⟨hw₀, hw₁⟩ := hf 2
  unfold spread
  generalize f 0 = u, f 1 = v, f 2 = w at *
  -- Each tent is one term of inclusion and exclusion over the minima.
  have h000 : tent u v w = 1 - u - v - w + min u v + min u w + min v w - min u (min v w) := by
    unfold tent; grind
  have h001 : tent u v (w - 1) = w - min u w - min v w + min u (min v w) := by unfold tent; grind
  have h010 : tent u (v - 1) w = v - min u v - min v w + min u (min v w) := by unfold tent; grind
  have h100 : tent (u - 1) v w = u - min u v - min u w + min u (min v w) := by unfold tent; grind
  have h011 : tent u (v - 1) (w - 1) = min v w - min u (min v w) := by unfold tent; grind
  have h101 : tent (u - 1) v (w - 1) = min u w - min u (min v w) := by unfold tent; grind
  have h110 : tent (u - 1) (v - 1) w = min u v - min u (min v w) := by unfold tent; grind
  have h111 : tent (u - 1) (v - 1) (w - 1) = min u (min v w) := by unfold tent; grind
  rw [h000, h001, h010, h100, h011, h101, h110, h111]
  module

/-- The indices of the points of an axis, and the one past its end. -/
noncomputable def knots (points : ℕ) : Finset ℤ := Finset.Icc 0 ((points - 1 : ℕ) + 1)

/-- Of the knots of an axis only the two around a place are less than one away from it. -/
theorem sum_knots {points : ℕ} {x : ℝ} (hx : x ∈ Set.Icc (0 : ℝ) (points - 1 : ℕ))
    {F : ℤ → Triple ℝ} (hF : ∀ n : ℤ, 1 ≤ |x - n| → F n = 0) :
    ∑ n ∈ knots points, F n = F ⌊x⌋ + F (⌊x⌋ + 1) := by
  have hlow : (⌊x⌋ : ℝ) ≤ x := Int.floor_le x
  have hhigh : x < ⌊x⌋ + 1 := Int.lt_floor_add_one x
  have hpos : 0 ≤ ⌊x⌋ := Int.floor_nonneg.mpr hx.1
  have htop : ⌊x⌋ ≤ (points - 1 : ℕ) := Int.floor_le_iff.mpr (lt_of_le_of_lt hx.2 (by simp))
  refine Finset.sum_eq_add ⌊x⌋ (⌊x⌋ + 1) (by omega) (fun n _ hn => hF n ?_) (fun h => ?_)
    (fun h => ?_)
  -- Any other knot is at least one step to the left or to the right of the place.
  · rcases lt_or_gt_of_ne hn.1 with h | h
    · have : (n : ℝ) + 1 ≤ ⌊x⌋ := by exact_mod_cast h
      exact (by linarith : 1 ≤ x - n).trans (le_abs_self _)
    · have h' : ⌊x⌋ + 2 ≤ n := by omega
      have : (⌊x⌋ : ℝ) + 2 ≤ n := by exact_mod_cast h'
      exact (by linarith : 1 ≤ -(x - n)).trans (neg_le_abs _)
  · exact absurd (Finset.mem_Icc.mpr ⟨hpos, by omega⟩) h
  · exact absurd (Finset.mem_Icc.mpr ⟨by omega, by omega⟩) h

theorem tetrahedral_eq_sum_tents :
    a.tetrahedral p = ∑ r ∈ knots a.axes.1, ∑ g ∈ knots a.axes.2.1, ∑ b ∈ knots a.axes.2.2,
      tent (axisPlace a.axes.1 p.1 - r) (axisPlace a.axes.2.1 p.2.1 - g)
        (axisPlace a.axes.2.2 p.2.2 - b) • a.corner r g b := by
  have hfar {u v w : ℝ} (h : 1 ≤ |u| ∨ 1 ≤ |v| ∨ 1 ≤ |w|) (c : Triple ℝ) : tent u v w • c = 0 := by
    rw [tent_eq_zero h, zero_smul]
  have hnext (x : ℝ) : x - ((⌊x⌋ + 1 : ℤ) : ℝ) = Int.fract x - 1 := by
    push_cast
    rw [← sub_sub, Int.self_sub_floor]
  rw [tetrahedral_eq_spread, sum_tents _ fun m => Set.Ico_subset_Icc_self (a.fractions_mem p m),
    sum_knots (axisPlace_mem _ p.1) fun r hr => Finset.sum_eq_zero fun g _ =>
      Finset.sum_eq_zero fun b _ => hfar (.inl hr) _]
  rw [sum_knots (axisPlace_mem _ p.2.1) fun g hg =>
      Finset.sum_eq_zero fun b _ => hfar (.inr (.inl hg)) _,
    sum_knots (axisPlace_mem _ p.2.1) fun g hg =>
      Finset.sum_eq_zero fun b _ => hfar (.inr (.inl hg)) _]
  simp only [sum_knots (axisPlace_mem _ p.2.2) fun b hb => hfar (.inr (.inr hb)) _, hnext,
    Int.self_sub_floor]
  simp [cellCorner, fractions, cells, cell_eq]

theorem continuous_tetrahedral : Continuous (a.tetrahedral : Triple ℝ → Triple ℝ) := by
  simp only [funext a.tetrahedral_eq_sum_tents, tent]
  have hplace := continuous_axisPlace
  refine continuous_finsetSum _ fun r _ => continuous_finsetSum _ fun g _ =>
    continuous_finsetSum _ fun b _ => ?_
  fun_prop

/-! ## §5 The choice of the tetrahedron -/

/-- Every order of the axes that sorts the fractions gives the walk that the kernel takes, and the
kernel is continuous over all colours. -/
theorem tetrahedral_any_sorting_and_continuous :
    (∀ (p : Triple ℝ) (s : Equiv.Perm (Fin 3)), Antitone (a.fractions p ∘ s) →
      a.tetrahedral p = a.cellCorner p ∅ +
        a.fractions p (s 0) • (a.cellCorner p {s 0} - a.cellCorner p ∅) +
        a.fractions p (s 1) • (a.cellCorner p {s 0, s 1} - a.cellCorner p {s 0}) +
        a.fractions p (s 2) • (a.cellCorner p Finset.univ - a.cellCorner p {s 0, s 1})) ∧
      Continuous (a.tetrahedral : Triple ℝ → Triple ℝ) := by
  refine ⟨fun p s hs => ?_, a.continuous_tetrahedral⟩
  rw [tetrahedral_eq_spread, spread_min_eq_walk hs, walk_eq]

/-- A lattice with one point on the green axis. -/
noncomputable def thinLattice : SampleArray ℝ where
  dims := [2, 1, 2, 3]
  values := #[0, 0, 0, 0, 0, 1, 1, 0, 0, -1, 0, 1]

theorem cells_thinLattice :
    thinLattice.cells (1 / 2, 7 / 10, 1 / 2) = ![(0, 1 / 2), (0, 0), (0, 1 / 2)] := by
  have hmiddle : cell 2 (1 / 2 : ℝ) = (0, 1 / 2) := by
    rw [cell_eq, axisPlace_eq, Scalar.unitClamp_of_mem (by norm_num)]
    norm_num
  have hpoint : cell 1 (7 / 10 : ℝ) = (0, 0) := by simp [cell_eq, axisPlace_eq]
  funext m
  fin_cases m
  · exact hmiddle
  · exact hpoint
  · exact hmiddle

-- Red and blue are tied: the walk goes along red first, then blue, then green.
theorem tetrahedral_any_sorting_and_continuous_tie :
    Antitone (thinLattice.fractions (1 / 2, 7 / 10, 1 / 2) ∘ Equiv.swap 1 2) ∧
      thinLattice.tetrahedral (1 / 2, 7 / 10, 1 / 2) = (-1 / 2, 0, 1 / 2) := by
  have hfractions : thinLattice.fractions (1 / 2, 7 / 10, 1 / 2) = ![1 / 2, 0, 1 / 2] := by
    funext m
    rw [fractions, cells_thinLattice]
    fin_cases m <;> rfl
  have hsorted : Antitone (thinLattice.fractions (1 / 2, 7 / 10, 1 / 2) ∘ Equiv.swap 1 2) := by
    rw [hfractions, Fin.antitone_iff_succ_le]
    intro m
    fin_cases m <;> simp [Equiv.swap_apply_def]
  refine ⟨hsorted, ?_⟩
  rw [(tetrahedral_any_sorting_and_continuous thinLattice).1 _ _ hsorted, hfractions]
  simp only [cellCorner, cells_thinLattice, Equiv.swap_apply_left, Equiv.swap_apply_right,
    Equiv.swap_apply_of_ne_of_ne (show (0 : Fin 3) ≠ 1 by decide) (show (0 : Fin 3) ≠ 2 by decide)]
  simp [corner, axes, thinLattice, size, clampPoint, flat, narrow]
  norm_num

end SampleArray

end CommonLut
