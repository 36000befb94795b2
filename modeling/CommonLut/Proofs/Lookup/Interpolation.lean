import Mathlib.Algebra.Order.Monoid.Prod
import Mathlib.Analysis.Convex.Combination
import Mathlib.Data.Fin.Tuple.Sort
import CommonLut.Proofs.Lookup.Lattice

/-!
# What lattice interpolation promises

Both kernels, read in exact arithmetic, interpolate the lattice: they give back its samples, stay
between the corners of a cell, follow samples that are affine in the indices, and see a colour only
through its clamp. The axes may have different numbers of points, one included.

Main definitions: `SampleArray.StandsAt`, `SampleArray.IsAffine`, `SampleArray.Interpolates`.
Main statements: `SampleArray.interpolates_trilinear`, `SampleArray.interpolates_tetrahedral`,
`SampleArray.lattice_kernels_interpolate`.
-/

namespace CommonLut

namespace SampleArray

open scoped Exact

/-! ## §1 Lattice positions -/

/-- A coordinate stands at a point of an axis; on an axis with one point every coordinate does. -/
def StandsAt (points i : ℕ) (x : ℝ) : Prop :=
  i < points ∧ (points = 1 ∨ x = i / (points - 1 : ℕ))

theorem StandsAt.axisPlace_eq {points i : ℕ} {x : ℝ} (h : StandsAt points i x) :
    axisPlace points x = i := by
  obtain ⟨hi, rfl | rfl⟩ := h
  · obtain rfl : i = 0 := by omega
    simp [SampleArray.axisPlace_eq]
  · by_cases hlast : points - 1 = 0
    · obtain rfl : i = 0 := by omega
      simp [SampleArray.axisPlace_eq, hlast]
    · have hpos : (0 : ℝ) < (points - 1 : ℕ) := by exact_mod_cast Nat.pos_of_ne_zero hlast
      have hle : (i : ℝ) ≤ (points - 1 : ℕ) := by exact_mod_cast Nat.le_sub_one_of_lt hi
      rw [SampleArray.axisPlace_eq,
        Scalar.unitClamp_of_mem ⟨by positivity, (div_le_one hpos).mpr hle⟩,
        div_mul_cancel₀ _ hpos.ne']

theorem StandsAt.cell_eq {points i : ℕ} {x : ℝ} (h : StandsAt points i x) :
    cell points x = ((i : ℤ), 0) := by
  rw [SampleArray.cell_eq, h.axisPlace_eq, Int.floor_natCast, Int.fract_natCast]

theorem cell_unitClamp (points : ℕ) (x : ℝ) : cell points (Scalar.unitClamp x) = cell points x := by
  rw [cell_eq, axisPlace_unitClamp, ← cell_eq]

/-- The next point of a cell, clamped to the axis, is a whole step away unless the fraction is
zero. -/
theorem clampPoint_add_fraction (points : ℕ) (x : ℝ) :
    (clampPoint points (cell points x).1 : ℝ) + (cell points x).2 *
        (clampPoint points ((cell points x).1 + 1) - clampPoint points (cell points x).1) =
      axisPlace points x := by
  have hplace : ((cell points x).1 : ℝ) + (cell points x).2 = axisPlace points x := by
    rw [cell_eq, Int.floor_add_fract]
  have htop : axisPlace points x ≤ (points - 1 : ℕ) := (axisPlace_mem points x).2
  have hfraction : 0 ≤ (cell points x).2 := (fraction_mem points x).1
  obtain ⟨hlow, hhigh⟩ := cell_mem points x
  obtain ⟨i, hi⟩ := Int.eq_ofNat_of_zero_le hlow
  rw [hi, Int.cast_natCast] at hplace
  rw [hi] at hhigh ⊢
  have hlower : clampPoint points i = i := by unfold clampPoint; omega
  rcases Nat.lt_or_ge i (points - 1) with hinner | hlast
  · have hnext : clampPoint points (i + 1 : ℤ) = i + 1 := by unfold clampPoint; omega
    rw [hlower, hnext, ← hplace]
    push_cast
    ring
  -- The neighbour past the last point is the last point itself, but the fraction is zero there.
  · have hi' : i = points - 1 := by omega
    have hzero : (cell points x).2 = 0 := by
      rw [← hi'] at htop
      linarith
    rw [hlower, hzero, ← hplace, hzero]
    ring

/-! ## §2 Samples -/

section

variable {ω : Type} [Precision ω ℝ] (a : SampleArray ω)

/-- The samples of a lattice are an affine function of the indices. -/
def IsAffine (origin red green blue : Triple ℝ) : Prop :=
  ∀ i j k : ℕ, i < a.axes.1 → j < a.axes.2.1 → k < a.axes.2.2 →
    a.corner i j k = origin + (i : ℝ) • red + (j : ℝ) • green + (k : ℝ) • blue

theorem corner_clampPoint (r g b : ℤ) :
    a.corner (clampPoint a.axes.1 r : ℤ) (clampPoint a.axes.2.1 g : ℤ)
      (clampPoint a.axes.2.2 b : ℤ) = a.corner r g b := by
  have hclamp (points : ℕ) (i : ℤ) :
      clampPoint points (clampPoint points i : ℤ) = clampPoint points i := by
    unfold clampPoint
    omega
  unfold corner
  simp only [hclamp]

theorem IsAffine.corner_eq {a : SampleArray ω} {origin red green blue : Triple ℝ}
    (h : a.IsAffine origin red green blue)
    (hpos : 0 < a.axes.1 ∧ 0 < a.axes.2.1 ∧ 0 < a.axes.2.2) (r g b : ℤ) :
    a.corner r g b = origin + (clampPoint a.axes.1 r : ℝ) • red +
      (clampPoint a.axes.2.1 g : ℝ) • green + (clampPoint a.axes.2.2 b : ℝ) • blue := by
  have hlt {points : ℕ} (hp : 0 < points) (i : ℤ) : clampPoint points i < points := by
    unfold clampPoint
    omega
  rw [← corner_clampPoint, h _ _ _ (hlt hpos.1 r) (hlt hpos.2.1 g) (hlt hpos.2.2 b)]

/-! ## §3 Inclusion and exclusion of simple corners -/

theorem spread_zero {meet : ℝ → ℝ → ℝ} (hmeet : meet 0 0 = 0) (c : Finset (Fin 3) → Triple ℝ) :
    spread meet c 0 = c ∅ := by
  simp [spread, hmeet]

/-- When each axis contributes on its own, sets of several axes add nothing, and each contribution
is blended by its fraction. -/
theorem spread_affine (meet : ℝ → ℝ → ℝ) (origin : Triple ℝ) (x : Fin 3 → ℤ → ℝ)
    (slope : Fin 3 → Triple ℝ) (f : Fin 3 → ℝ) :
    spread meet (fun further => origin + ∑ m, x m (if m ∈ further then 1 else 0) • slope m) f =
      origin + ∑ m, (x m 0 + f m * (x m 1 - x m 0)) • slope m := by
  simp [spread, Fin.sum_univ_three]
  module

theorem IsAffine.spread_eq {a : SampleArray ω} {origin red green blue : Triple ℝ}
    (h : a.IsAffine origin red green blue)
    (hpos : 0 < a.axes.1 ∧ 0 < a.axes.2.1 ∧ 0 < a.axes.2.2) (meet : ℝ → ℝ → ℝ) (p : Triple ℝ) :
    spread meet (a.cellCorner p) (a.fractions p) =
      origin + axisPlace a.axes.1 p.1 • red + axisPlace a.axes.2.1 p.2.1 • green +
        axisPlace a.axes.2.2 p.2.2 • blue := by
  have hcorner : a.cellCorner p = fun further => origin + ∑ m : Fin 3,
      (clampPoint (![a.axes.1, a.axes.2.1, a.axes.2.2] m)
        ((a.cells p m).1 + if m ∈ further then 1 else 0) : ℝ) • ![red, green, blue] m := by
    funext further
    simp [cellCorner, h.corner_eq hpos, Fin.sum_univ_three, add_assoc]
  rw [hcorner, spread_affine meet origin fun m e =>
    clampPoint (![a.axes.1, a.axes.2.1, a.axes.2.2] m) ((a.cells p m).1 + e)]
  simp [Fin.sum_univ_three, fractions, cells, clampPoint_add_fraction, add_assoc]

end

/-! ## §4 Between the corners -/

theorem blendColors_mem {S : Set (Triple ℝ)} (hS : Convex ℝ S) {p q : Triple ℝ} (hp : p ∈ S)
    (hq : q ∈ S) {t : ℝ} (ht : t ∈ Set.Icc (0 : ℝ) 1) : blendColors p q t ∈ S := by
  rw [blendColors_eq]
  exact hS.add_smul_sub_mem hp hq ht

theorem walk_mem {S : Set (Triple ℝ)} (hS : Convex ℝ S) {c₀ c₁ c₂ c₃ : Triple ℝ} (h₀ : c₀ ∈ S)
    (h₁ : c₁ ∈ S) (h₂ : c₂ ∈ S) (h₃ : c₃ ∈ S) {t₁ t₂ t₃ : ℝ} (ht₁ : t₁ ≤ 1) (ht₂ : t₂ ≤ t₁)
    (ht₃ : t₃ ≤ t₂) (ht : 0 ≤ t₃) : walk c₀ c₁ c₂ c₃ t₁ t₂ t₃ ∈ S := by
  have hweights : walk c₀ c₁ c₂ c₃ t₁ t₂ t₃ =
      ∑ m : Fin 4, ![1 - t₁, t₁ - t₂, t₂ - t₃, t₃] m • ![c₀, c₁, c₂, c₃] m := by
    rw [walk_eq, Fin.sum_univ_four]
    simp
    module
  rw [hweights]
  refine hS.sum_mem (fun m _ => ?_) ?_ (fun m _ => ?_)
  · fin_cases m <;> simp <;> linarith
  · simp [Fin.sum_univ_four]
  · fin_cases m <;> assumption

variable {ω : Type} [Precision ω ℝ] (a : SampleArray ω)

theorem trilinear_mem {S : Set (Triple ℝ)} (hS : Convex ℝ S) {p : Triple ℝ}
    (hcorners : ∀ further, a.cellCorner p further ∈ S) : a.trilinear p ∈ S := by
  have ht (m : Fin 3) : a.fractions p m ∈ Set.Icc (0 : ℝ) 1 :=
    Set.Ico_subset_Icc_self (a.fractions_mem p m)
  have hedge (further further' : Finset (Fin 3)) :
      blendColors (a.cellCorner p further) (a.cellCorner p further') (a.fractions p 2) ∈ S :=
    blendColors_mem hS (hcorners _) (hcorners _) (ht 2)
  rw [trilinear_eq_blends]
  exact blendColors_mem hS (blendColors_mem hS (hedge _ _) (hedge _ _) (ht 1))
    (blendColors_mem hS (hedge _ _) (hedge _ _) (ht 1)) (ht 0)

theorem tetrahedral_mem {S : Set (Triple ℝ)} (hS : Convex ℝ S) {p : Triple ℝ}
    (hcorners : ∀ further, a.cellCorner p further ∈ S) : a.tetrahedral p ∈ S := by
  have hsorted : Antitone (a.fractions p ∘ (Fin.revPerm.trans (Tuple.sort (a.fractions p)))) :=
    (Tuple.monotone_sort (a.fractions p)).comp_antitone Fin.rev_anti
  rw [tetrahedral_eq_spread, spread_min_eq_walk hsorted]
  exact walk_mem hS (hcorners _) (hcorners _) (hcorners _) (hcorners _) (a.fractions_mem p _).2.le
    (hsorted (by decide : (0 : Fin 3) ≤ 1)) (hsorted (by decide : (1 : Fin 3) ≤ 2))
    (a.fractions_mem p _).1

/-! ## §5 Interpolation -/

/-- What a kernel does that interpolates a lattice. -/
structure Interpolates (a : SampleArray ω) (kernel : Triple ℝ → Triple ℝ) : Prop where
  /-- At a lattice position it gives the sample there. -/
  at_points : ∀ (i j k : ℕ) (p : Triple ℝ), StandsAt a.axes.1 i p.1 → StandsAt a.axes.2.1 j p.2.1 →
    StandsAt a.axes.2.2 k p.2.2 → kernel p = a.corner i j k
  /-- No channel leaves the range of the eight corners of the cell. -/
  between : ∀ p : Triple ℝ, kernel p ∈
    Set.Icc (Finset.univ.inf' Finset.univ_nonempty (a.cellCorner p))
      (Finset.univ.sup' Finset.univ_nonempty (a.cellCorner p))
  /-- Samples that are affine in the indices are continued by the affine function. -/
  affine : ∀ origin red green blue : Triple ℝ, a.IsAffine origin red green blue →
    ∀ p : Triple ℝ, kernel p = origin + axisPlace a.axes.1 p.1 • red +
      axisPlace a.axes.2.1 p.2.1 • green + axisPlace a.axes.2.2 p.2.2 • blue
  /-- A colour counts only through its clamp. -/
  clamped : ∀ p : Triple ℝ, kernel (Triple.map Scalar.unitClamp p) = kernel p

variable {a : SampleArray ω}

/-- A kernel interpolates if it spreads the corners by some meet and stays in every convex set
around them. -/
theorem interpolates_of_spread {kernel : Triple ℝ → Triple ℝ} {meet : ℝ → ℝ → ℝ}
    (hmeet : meet 0 0 = 0)
    (hspread : ∀ p, kernel p = spread meet (a.cellCorner p) (a.fractions p))
    (hconvex : ∀ {S : Set (Triple ℝ)}, Convex ℝ S → ∀ {p : Triple ℝ},
      (∀ further, a.cellCorner p further ∈ S) → kernel p ∈ S)
    (hpos : 0 < a.axes.1 ∧ 0 < a.axes.2.1 ∧ 0 < a.axes.2.2) : a.Interpolates kernel where
  at_points i j k p hr hg hb := by
    -- At a grid point no fraction is left, so all the other corners weigh nothing.
    have hcells : a.cells p = ![((i : ℤ), 0), ((j : ℤ), 0), ((k : ℤ), 0)] := by
      funext m
      fin_cases m
      · exact hr.cell_eq
      · exact hg.cell_eq
      · exact hb.cell_eq
    have hfractions : a.fractions p = 0 := by
      funext m
      rw [fractions, hcells]
      fin_cases m <;> rfl
    rw [hspread, hfractions, spread_zero hmeet, cellCorner, hcells]
    simp
  between p := hconvex (convex_Icc _ _) fun further =>
    ⟨Finset.inf'_le _ (Finset.mem_univ further), Finset.le_sup' _ (Finset.mem_univ further)⟩
  affine _ _ _ _ h p := by rw [hspread, h.spread_eq hpos]
  clamped p := by
    -- A kernel sees a position through the cell alone, and cells are found after clamping.
    have hcells : a.cells (Triple.map Scalar.unitClamp p) = a.cells p := by
      funext m
      simp only [cells, Triple.map, cell_unitClamp]
    have hcorner : a.cellCorner (Triple.map Scalar.unitClamp p) = a.cellCorner p := by
      funext further
      simp only [cellCorner, hcells]
    have hfractions : a.fractions (Triple.map Scalar.unitClamp p) = a.fractions p := by
      funext m
      rw [fractions, hcells, fractions]
    rw [hspread, hspread, hcorner, hfractions]

theorem interpolates_trilinear (hpos : 0 < a.axes.1 ∧ 0 < a.axes.2.1 ∧ 0 < a.axes.2.2) :
    a.Interpolates a.trilinear :=
  interpolates_of_spread (mul_zero 0) a.trilinear_eq_spread a.trilinear_mem hpos

theorem interpolates_tetrahedral (hpos : 0 < a.axes.1 ∧ 0 < a.axes.2.1 ∧ 0 < a.axes.2.2) :
    a.Interpolates a.tetrahedral :=
  interpolates_of_spread (min_self 0) a.tetrahedral_eq_spread a.tetrahedral_mem hpos

/-! ## §6 The identity lattice -/

/-- In a list of blocks of one length, an index has a block and a place in the block. -/
theorem getElem?_flatMap_of_length_eq {α β : Type} {f : α → List β} {n : ℕ}
    (hf : ∀ x, (f x).length = n) (xs : List α) (i : ℕ) {j : ℕ} (hj : j < n) :
    (xs.flatMap f)[i * n + j]? = xs[i]?.bind fun x => (f x)[j]? := by
  induction xs generalizing i with
  | nil => simp
  | cons x xs ih =>
    rw [List.flatMap_cons]
    cases i with
    | zero => rw [Nat.zero_mul, Nat.zero_add, List.getElem?_append_left (by rw [hf]; exact hj),
        List.getElem?_cons_zero, Option.bind_some]
    | succ i =>
      rw [List.getElem?_append_right (by rw [hf, Nat.succ_mul]; omega), hf, List.getElem?_cons_succ,
        ← ih, Nat.succ_mul]
      congr 1
      omega

section

variable (size : ℕ)

theorem axes_identityLattice :
    (identityLattice size : SampleArray ℝ).axes = (max size 2, max size 2, max size 2) := rfl

theorem size_identityLattice :
    (identityLattice size : SampleArray ℝ).size = max size 2 * max size 2 * max size 2 * 3 := by
  simp [identityLattice, SampleArray.size, List.length_flatMap, mul_assoc]

theorem corner_identityLattice {i j k : ℕ} (hi : i < max size 2) (hj : j < max size 2)
    (hk : k < max size 2) :
    (identityLattice size : SampleArray ℝ).corner i j k =
      ((i : ℝ) / (max size 2 - 1 : ℕ), (j : ℝ) / (max size 2 - 1 : ℕ),
        (k : ℝ) / (max size 2 - 1 : ℕ)) := by
  -- A sample is found through the three loops that made it, the outermost first.
  have hvalue (t : ℕ) (ht : t < 3) :
      (identityLattice size : SampleArray ℝ).values[
          ((i * max size 2 + j) * max size 2 + k) * 3 + t]? =
        [(i : ℝ) / (max size 2 - 1 : ℕ), (j : ℝ) / (max size 2 - 1 : ℕ),
          (k : ℝ) / (max size 2 - 1 : ℕ)][t]? := by
    have hindex : ((i * max size 2 + j) * max size 2 + k) * 3 + t =
        i * (max size 2 * (max size 2 * 3)) + (j * (max size 2 * 3) + (k * 3 + t)) := by ring
    have hpoint : k * 3 + t < max size 2 * 3 := by omega
    have hline : j * (max size 2 * 3) + (k * 3 + t) < max size 2 * (max size 2 * 3) := by nlinarith
    rw [identityLattice, List.getElem?_toArray, hindex,
      getElem?_flatMap_of_length_eq (fun r => by simp [List.length_flatMap]) _ i hline,
      List.getElem?_range hi, Option.bind_some,
      getElem?_flatMap_of_length_eq (fun g => by simp [List.length_flatMap]) _ j hpoint,
      List.getElem?_range hj, Option.bind_some,
      getElem?_flatMap_of_length_eq (n := 3) (fun b => rfl) _ k ht,
      List.getElem?_range hk, Option.bind_some]
    rfl
  have hclamp {t : ℕ} (ht : t < max size 2) : clampPoint (max size 2) (t : ℤ) = t := by
    unfold clampPoint
    omega
  unfold corner
  simp only [axes_identityLattice, size_identityLattice, hclamp hi, hclamp hj, hclamp hk, flat]
  have hred := hvalue 0 (by decide)
  rw [Nat.add_zero] at hred
  rw [if_neg (by omega), hred, hvalue 1 (by decide), hvalue 2 (by decide)]
  rfl

theorem isAffine_identityLattice :
    (identityLattice size : SampleArray ℝ).IsAffine 0 (1 / (max size 2 - 1 : ℕ), 0, 0)
      (0, 1 / (max size 2 - 1 : ℕ), 0) (0, 0, 1 / (max size 2 - 1 : ℕ)) := by
  intro i j k hi hj hk
  rw [corner_identityLattice size hi hj hk]
  simp [div_eq_mul_inv]

/-- A kernel that interpolates the identity lattice gives back every normalized colour. -/
theorem Interpolates.identityLattice_eq {kernel : Triple ℝ → Triple ℝ}
    (h : (identityLattice size : SampleArray ℝ).Interpolates kernel) {p : Triple ℝ}
    (hp : p ∈ Set.Icc 0 1) : kernel p = p := by
  obtain ⟨⟨hr₀, hg₀, hb₀⟩, ⟨hr₁, hg₁, hb₁⟩⟩ := hp
  have hlast : ((max size 2 - 1 : ℕ) : ℝ) ≠ 0 := by
    exact_mod_cast (by omega : max size 2 - 1 ≠ 0)
  rw [h.affine _ _ _ _ (isAffine_identityLattice size) p]
  simp only [axes_identityLattice, axisPlace_eq, Scalar.unitClamp_of_mem ⟨hr₀, hr₁⟩,
    Scalar.unitClamp_of_mem ⟨hg₀, hg₁⟩, Scalar.unitClamp_of_mem ⟨hb₀, hb₁⟩]
  generalize ((max size 2 - 1 : ℕ) : ℝ) = last at hlast ⊢
  simp [hlast]

end

/-- Both kernels interpolate every lattice, and give back every normalized colour on the identity
lattice of any size. -/
theorem lattice_kernels_interpolate :
    (∀ {ω : Type} [Precision ω ℝ] (a : SampleArray ω),
      0 < a.axes.1 ∧ 0 < a.axes.2.1 ∧ 0 < a.axes.2.2 →
        a.Interpolates a.trilinear ∧ a.Interpolates a.tetrahedral) ∧
      ∀ (size : ℕ) (p : Triple ℝ), p ∈ Set.Icc 0 1 →
        (identityLattice size : SampleArray ℝ).trilinear p = p ∧
          (identityLattice size : SampleArray ℝ).tetrahedral p = p := by
  refine ⟨fun a hpos => ⟨interpolates_trilinear hpos, interpolates_tetrahedral hpos⟩,
    fun size p hp => ?_⟩
  have hpos : 0 < (identityLattice size : SampleArray ℝ).axes.1 ∧
      0 < (identityLattice size : SampleArray ℝ).axes.2.1 ∧
      0 < (identityLattice size : SampleArray ℝ).axes.2.2 := by
    simp [axes_identityLattice]
  exact ⟨(interpolates_trilinear hpos).identityLattice_eq size hp,
    (interpolates_tetrahedral hpos).identityLattice_eq size hp⟩

-- Any green coordinate stands at the one point of the green axis.
theorem lattice_kernels_interpolate_thin :
    (0 < thinLattice.axes.1 ∧ 0 < thinLattice.axes.2.1 ∧ 0 < thinLattice.axes.2.2) ∧
      thinLattice.trilinear (1, 7 / 10, 1) = (-1, 0, 1) ∧
      thinLattice.tetrahedral (1, 7 / 10, 1) = (-1, 0, 1) ∧
      ((1 / 2, 0, 1) : Triple ℝ) ∈ Set.Icc 0 1 ∧
      (identityLattice 3 : SampleArray ℝ).tetrahedral (1 / 2, 0, 1) = (1 / 2, 0, 1) := by
  have hpos : 0 < thinLattice.axes.1 ∧ 0 < thinLattice.axes.2.1 ∧ 0 < thinLattice.axes.2.2 := by
    decide
  have hunit : ((1 / 2, 0, 1) : Triple ℝ) ∈ Set.Icc 0 1 := by
    simp [Prod.le_def]
    norm_num
  have hred : StandsAt thinLattice.axes.1 1 1 := ⟨by decide, .inr (by norm_num [thinLattice, axes])⟩
  have hgreen : StandsAt thinLattice.axes.2.1 0 (7 / 10) := ⟨by decide, .inl rfl⟩
  have hblue : StandsAt thinLattice.axes.2.2 1 1 := hred
  have hcorner : thinLattice.corner (1 : ℕ) (0 : ℕ) (1 : ℕ) = ((-1, 0, 1) : Triple ℝ) := by
    simp [corner, axes, thinLattice, size, clampPoint, flat, narrow]
  obtain ⟨htrilinear, htetrahedral⟩ := lattice_kernels_interpolate.1 thinLattice hpos
  refine ⟨hpos, ?_, ?_, hunit, (lattice_kernels_interpolate.2 3 _ hunit).2⟩
  · rw [htrilinear.at_points 1 0 1 _ hred hgreen hblue, hcorner]
  · rw [htetrahedral.at_points 1 0 1 _ hred hgreen hblue, hcorner]

end SampleArray

end CommonLut
