import CommonLut.Proofs.Lookup.ArrayElement
import Mathlib.Algebra.BigOperators.Group.List.Basic

/-!
# Accepted shapes

An array is accepted exactly when its samples fill its dimensions: none of them is zero and the
product of those that count, taken in unbounded numbers, is the number of samples. Sizes have a
bound, so the product can be taken step by step, stopping where it leaves the bound: as no dimension
is zero, the products on the way are not larger than the whole one, and what is given up is what the
bound excludes anyway.

Main definitions: `SampleArray.HasShape`, `SampleArray.checkedProduct?`, `SampleArray.WellShaped`.
Main statements: `SampleArray.filled_iff`, `SampleArray.check_eq_stepwise`,
`SampleArray.shapes_accepted`.
-/

namespace CommonLut.SampleArray

/-! ## §1 Dimensions and a number of samples -/

/-- The dimensions that a layout can have for a number of samples. -/
def HasShape : ArrayLayout → List Nat → Nat → Prop
  | .table, dims, count => dims ≠ [] ∧ (∀ d ∈ dims, d ≠ 0) ∧ dims.prod = count
  | .matrix, dims, count =>
    ∃ r c rest, dims = r :: c :: rest ∧ (∀ d ∈ dims, d ≠ 0) ∧ r * c = count

theorem HasShape.ne_zero {layout : ArrayLayout} {dims : List Nat} {count : Nat}
    (h : HasShape layout dims count) : ∀ d ∈ dims, d ≠ 0 := by
  cases layout with
  | table => exact h.2.1
  | matrix =>
    obtain ⟨r, c, rest, -, hdims, -⟩ := h
    exact hdims

theorem prod_pos_of_ne_zero {dims : List Nat} (hdims : ∀ d ∈ dims, d ≠ 0) : 0 < dims.prod :=
  List.prod_pos_iff_forall_pos_nat.mpr fun d hd => Nat.pos_of_ne_zero (hdims d hd)

/-- The dimension that rows are counted by, the last one of a table and the second one of a matrix,
divides the number of samples. -/
theorem HasShape.columns {a : SampleArray Double} (h : HasShape a.layout a.dims a.size) :
    0 < a.columns ∧ a.columns ∣ a.size ∧ 0 < a.size ∧ a.countedDims.prod = a.size := by
  obtain ⟨dims, values, layout, integers, rawHalfs, encoding⟩ := a
  cases layout with
  | table =>
    obtain ⟨hne, hdims, hprod⟩ := h
    have hlast : dims.getLast?.getD 0 = dims.getLast hne := by
      rw [List.getLast?_eq_some_getLast hne, Option.getD_some]
    have hmem : dims.getLast hne ∈ dims := List.getLast_mem hne
    refine ⟨?_, ?_, ?_, hprod⟩
    · show 0 < dims.getLast?.getD 0
      rw [hlast]
      exact Nat.pos_of_ne_zero (hdims _ hmem)
    · show dims.getLast?.getD 0 ∣ _
      rw [hlast, ← hprod]
      exact List.dvd_prod hmem
    · rw [← hprod]
      exact prod_pos_of_ne_zero hdims
  | matrix =>
    obtain ⟨r, c, rest, rfl, hdims, hprod⟩ := h
    have hr : 0 < r := Nat.pos_of_ne_zero (hdims r (by simp))
    have hc : 0 < c := Nat.pos_of_ne_zero (hdims c (by simp))
    refine ⟨hc, ⟨r, ?_⟩, ?_, ?_⟩
    · rw [← hprod]
      exact Nat.mul_comm r c
    · rw [← hprod]
      exact Nat.mul_pos hr hc
    · simpa [countedDims] using hprod

/-- What is checked is the shape, and that the number of samples is a size. -/
theorem filled_iff {a : SampleArray Double} :
    a.Filled ↔ HasShape a.layout a.dims a.size ∧ a.size < Text.sizeBound := by
  have hfold : a.countedDims.foldl (· * ·) 1 = a.countedDims.prod := List.prod_eq_foldl.symm
  constructor
  · rintro ⟨hnonzero, hrows, hbounded, hcount⟩
    rw [hfold] at hbounded hcount
    have hprod : a.countedDims.prod = a.size := not_not.mp hcount
    have hdims : ∀ d ∈ a.dims, d ≠ 0 := fun d hd hzero =>
      hnonzero (List.contains_iff_mem.mpr (hzero ▸ hd))
    refine ⟨?_, by omega⟩
    -- Without a dimension to count rows by there are no columns.
    have hcolumns : a.columns ≠ 0 := fun h => hrows (.inl h)
    obtain ⟨dims, values, layout, integers, rawHalfs, encoding⟩ := a
    cases layout with
    | table => exact ⟨fun hnil => hcolumns (by subst hnil; rfl), hdims, hprod⟩
    | matrix =>
      match dims, hcolumns, hdims, hprod with
      | [], hcolumns, _, _ => exact absurd rfl hcolumns
      | [_], hcolumns, _, _ => exact absurd rfl hcolumns
      | r :: c :: rest, _, hdims, hprod =>
        exact ⟨r, c, rest, rfl, hdims, by simpa [countedDims] using hprod⟩
  · rintro ⟨hshape, hbound⟩
    obtain ⟨hcolumns, hdvd, -, hprod⟩ := hshape.columns
    refine ⟨fun hzero => ?_, ?_, ?_, ?_⟩
    · exact hshape.ne_zero 0 (List.contains_iff_mem.mp hzero) rfl
    · rintro (hzero | hragged)
      · omega
      · exact hragged (Nat.mod_eq_zero_of_dvd hdvd)
    · rw [hfold, hprod]
      omega
    · rw [hfold, hprod]
      exact not_not.mpr rfl

/-! ## §2 The product step by step -/

/-- A product of sizes; none when one on the way is no size. -/
def checkedProduct? (dims : List Nat) : Option Nat :=
  dims.foldlM (fun acc d => if acc * d < Text.sizeBound then some (acc * d) else none) 1

theorem checkedFold_eq {dims : List Nat} (hdims : ∀ d ∈ dims, d ≠ 0) {acc : Nat}
    (hacc : acc < Text.sizeBound) :
    dims.foldlM (fun acc d => if acc * d < Text.sizeBound then some (acc * d) else none) acc =
      if acc * dims.prod < Text.sizeBound then some (acc * dims.prod) else none := by
  induction dims generalizing acc with
  | nil => simp [hacc]
  | cons d dims ih =>
    have hdims' : ∀ d ∈ dims, d ≠ 0 := fun d hd => hdims d (List.mem_cons_of_mem _ hd)
    have hpos : 0 < dims.prod := prod_pos_of_ne_zero hdims'
    rw [List.foldlM_cons, List.prod_cons, ← Nat.mul_assoc]
    by_cases hstep : acc * d < Text.sizeBound
    · rw [if_pos hstep]
      exact ih hdims' hstep
    · -- Factors that are not zero do not bring the product back under the bound.
      have hlarger : acc * d ≤ acc * d * dims.prod := Nat.le_mul_of_pos_right _ hpos
      rw [if_neg hstep, if_neg (by omega)]
      rfl

/-- Stopping on the way gives up nothing that the bound allows. -/
theorem checkedProduct?_eq {dims : List Nat} (hdims : ∀ d ∈ dims, d ≠ 0) :
    checkedProduct? dims = if dims.prod < Text.sizeBound then some dims.prod else none := by
  rw [checkedProduct?, checkedFold_eq hdims (by decide), Nat.one_mul]

theorem countedDims_subset (a : SampleArray Double) : a.countedDims ⊆ a.dims := by
  unfold countedDims
  split
  · exact List.Subset.refl _
  · exact List.take_subset 2 a.dims

/-- The check with a product that never leaves the sizes. -/
theorem check_eq_stepwise (a : SampleArray Double) :
    a.check =
      if a.dims.contains 0 then .error (.zeroDimension a.dims)
      else if a.columns = 0 ∨ a.size % a.columns ≠ 0 then .error (.ragged a.size a.columns)
      else match checkedProduct? a.countedDims with
        | none => .error (.hugeDimensions a.dims)
        | some expected =>
          if expected ≠ a.size then .error (.sampleCount a.dims expected a.size) else .ok a := by
  have hfold : a.countedDims.foldl (· * ·) 1 = a.countedDims.prod := List.prod_eq_foldl.symm
  unfold check
  dsimp only
  split
  · rfl
  · next hnonzero =>
    -- Past the first test no dimension is zero, which is what both ways to count need to agree.
    have hdims : ∀ d ∈ a.countedDims, d ≠ 0 := fun d hd hzero =>
      hnonzero (List.contains_iff_mem.mpr (hzero ▸ a.countedDims_subset hd))
    rw [checkedProduct?_eq hdims, hfold]
    split
    · rfl
    · by_cases hbound : a.countedDims.prod < Text.sizeBound
      · rw [if_pos hbound, if_neg (by omega)]
      · rw [if_neg hbound, if_pos (by omega)]

/-! ## §3 Accepted arrays -/

/-- Full rows and columns, counted without leaving the sizes. -/
structure WellShaped (a : SampleArray Double) : Prop where
  size_eq : a.size = a.rows * a.columns
  rows_pos : 0 < a.rows
  columns_pos : 0 < a.columns
  product : checkedProduct? a.countedDims = some a.size

theorem Filled.wellShaped {a : SampleArray Double} (h : a.Filled) : a.WellShaped := by
  obtain ⟨hshape, hbound⟩ := filled_iff.mp h
  obtain ⟨hcolumns, hdvd, hsize, hprod⟩ := hshape.columns
  have hrows : a.rows = a.size / a.columns := if_neg hcolumns.ne'
  have hdims : ∀ d ∈ a.countedDims, d ≠ 0 := fun d hd =>
    hshape.ne_zero d (a.countedDims_subset hd)
  refine ⟨?_, ?_, hcolumns, ?_⟩
  · rw [hrows, Nat.div_mul_cancel hdvd]
  · rw [hrows]
    exact Nat.div_pos (Nat.le_of_dvd hsize hdvd) hcolumns
  · rw [checkedProduct?_eq hdims, hprod, if_pos hbound]

theorem check_eq_ok_iff {a b : SampleArray Double} :
    a.check = .ok b ↔ b = a ∧ HasShape a.layout a.dims a.size ∧ a.size < Text.sizeBound := by
  rw [check_eq_ok, filled_iff]

/-- What an element is read as, if its parts can be read and fit together. -/
theorem read_eq_ok_iff {options : ReadOptions} {layout : ArrayLayout} {rawHalfs : Bool}
    {e : Element} {a : SampleArray Double} :
    read options layout rawHalfs e = .ok a ↔
      ∃ text dims encoding samples,
        e.requiredAttribute "dim" = .ok text ∧ readDimensions text = .ok dims ∧
        readEncoding options e = .ok encoding ∧
        (Text.words e.text).mapM (readSample rawHalfs encoding) = .ok samples ∧
        HasShape layout dims samples.length ∧ samples.length < Text.sizeBound ∧
        a = { dims, values := samples.toArray, layout, rawHalfs, encoding } := by
  unfold read
  constructor
  · intro h
    obtain ⟨text, htext, h⟩ := bind_eq_ok.mp h
    obtain ⟨dims, hdims, h⟩ := bind_eq_ok.mp h
    obtain ⟨encoding, hencoding, h⟩ := bind_eq_ok.mp h
    obtain ⟨samples, hsamples, h⟩ := bind_eq_ok.mp h
    obtain ⟨ha, hshape, hbound⟩ := check_eq_ok_iff.mp (mapError_eq_ok.mp h)
    exact ⟨text, dims, encoding, samples, htext, hdims, hencoding, hsamples, hshape, hbound, ha⟩
  · rintro ⟨text, dims, encoding, samples, htext, hdims, hencoding, hsamples, hshape, hbound, rfl⟩
    refine bind_eq_ok.mpr ⟨text, htext, bind_eq_ok.mpr ⟨dims, hdims, bind_eq_ok.mpr ⟨encoding,
      hencoding, bind_eq_ok.mpr ⟨samples, hsamples, ?_⟩⟩⟩⟩
    exact mapError_eq_ok.mpr (check_eq_ok_iff.mpr ⟨rfl, hshape, hbound⟩)

/-- Tables, matrices and the elements that describe them are accepted exactly if samples and
dimensions have the shape of the layout, for as many samples as there are sizes; and every array
that is accepted has full rows and columns. -/
theorem shapes_accepted :
    (∀ dims (values : Array Double) a, table dims values = .ok a ↔
      HasShape .table dims values.size ∧ values.size < Text.sizeBound ∧ a = { dims, values }) ∧
    (∀ r c (values : Array Double) a, matrix r c values = .ok a ↔
      HasShape .matrix [r, c] values.size ∧ values.size < Text.sizeBound ∧
        a = { dims := [r, c], values, layout := .matrix }) ∧
    (∀ options layout rawHalfs e a, read options layout rawHalfs e = .ok a ↔
      ∃ text dims encoding samples,
        e.requiredAttribute "dim" = .ok text ∧ readDimensions text = .ok dims ∧
        readEncoding options e = .ok encoding ∧
        (Text.words e.text).mapM (readSample rawHalfs encoding) = .ok samples ∧
        HasShape layout dims samples.length ∧ samples.length < Text.sizeBound ∧
        a = { dims, values := samples.toArray, layout, rawHalfs, encoding }) ∧
    (∀ dims values a, table dims values = .ok a → WellShaped a) ∧
    (∀ r c values a, matrix r c values = .ok a → WellShaped a) ∧
    (∀ options layout rawHalfs e a, read options layout rawHalfs e = .ok a → WellShaped a) := by
  have hwell : ∀ {a b : SampleArray Double}, a.check = .ok b → b.WellShaped := by
    intro a b h
    obtain ⟨rfl, hfilled⟩ := check_eq_ok.mp h
    exact hfilled.wellShaped
  refine ⟨fun dims values a => ?_, fun r c values a => ?_, fun _ _ _ _ _ => read_eq_ok_iff,
    fun _ _ _ h => hwell h, fun _ _ _ _ h => hwell h, fun _ _ _ _ _ h => ?_⟩
  · exact check_eq_ok_iff.trans ⟨fun h => ⟨h.2.1, h.2.2, h.1⟩, fun h => ⟨h.2.2, h.1, h.2.1⟩⟩
  · exact check_eq_ok_iff.trans ⟨fun h => ⟨h.2.1, h.2.2, h.1⟩, fun h => ⟨h.2.2, h.1, h.2.1⟩⟩
  · exact (readable_of_read h).filled.wellShaped

/-- The product of these dimensions is a multiple of the bound: it does not wrap around to zero. -/
example : table (List.replicate 4 0x10000) (#[] : Array Double) =
    .error (.hugeDimensions (List.replicate 4 0x10000)) := by rfl

end CommonLut.SampleArray
