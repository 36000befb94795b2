import Mathlib.Algebra.BigOperators.Intervals
import CommonLut.Proofs.Exact
import CommonLut.Proofs.Binary.Value
import CommonLut.Proofs.Lookup.ArrayShape
import CommonLut.Proofs.Lookup.HalfDomain
import CommonLut.Proofs.Lookup.HalfSamples
import CommonLut.Proofs.Node.Buffers
import CommonLut.Proofs.Operator.Tables

/-!
# Matrices as affine maps

The product of a row with a pixel is taken in two ways. Up to four rows the channels that a pixel
lacks are supplied as zeros; beyond, they are left out and the product ends early. In exact
arithmetic both are the sum over all columns but the offset. So an accepted matrix of whatever size
computes one affine map on the channels that it has rows for, and the pixel may be shorter or longer
than the matrix.

Main definitions: `Matrix.affine`, `Matrix.Accepted`, `Matrix.applyExactly`.
Main statements: `Matrix.dot_row`, `Matrix.getElem?_apply`, `Matrix.Accepted.shape`,
`Matrix.applyExactly_eq_affine`.
-/

namespace CommonLut

open Binary Machine

open scoped Exact

/-- Products add up to a sum over positions. Where one list has ended, the other one counts as
multiplied by zero. -/
theorem foldl_zipWith_mul (as bs : List ℝ) (start : ℝ) {n : ℕ} (hn : as.length ≤ n) :
    (as.zipWith (· * ·) bs).foldl (· + ·) start =
      start + ∑ j ∈ Finset.range n, as.getD j 0 * bs.getD j 0 := by
  induction as generalizing bs start n with
  | nil => simp
  | cons a as ih =>
    cases bs with
    | nil => simp
    | cons b bs =>
      obtain ⟨k, rfl⟩ : ∃ k, n = k + 1 := Nat.exists_eq_add_of_le' (Nat.le_trans (by simp) hn)
      have hk : as.length ≤ k := by simpa using hn
      rw [List.zipWith_cons_cons, List.foldl_cons, ih bs (start + a * b) hk,
        Finset.sum_range_succ']
      simp only [List.getD_cons_succ, List.getD_cons_zero]
      ring

namespace Matrix

/-! ## §1 The map -/

/-- A coefficient, zero where the matrix has none. -/
noncomputable def coefficient (m : Matrix ℝ) (i j : ℕ) : ℝ :=
  m.array.values.toList.getD (i * m.columns + j) 0

/-- The affine map of a matrix on a list of channels: an output channel is the combination of the
channels by its row, those that are missing being zeros, and the offset if there is one. -/
noncomputable def affine (m : Matrix ℝ) (channels : List ℝ) (i : ℕ) : ℝ :=
  ∑ j ∈ Finset.range m.rows, m.coefficient i j * channels.getD j 0 +
    if m.hasOffset then m.coefficient i m.rows else 0

/-! ## §2 Rows and channels -/

/-- The product of a row with the channels, and its offset if it has one more coefficient. -/
theorem dot_eq_sum (rows : ℕ) (coefficients channels : List ℝ) :
    dot rows coefficients channels =
      ∑ j ∈ Finset.range rows, coefficients.getD j 0 * channels.getD j 0 +
        coefficients.getD rows 0 := by
  have hlength : (coefficients.take rows).length ≤ rows := List.length_take_le rows coefficients
  have hstart : (-0.0 : ℝ) = 0 := by norm_num
  -- The offset stands behind the coefficients that are multiplied.
  have htake : ∀ j ∈ Finset.range rows,
      (coefficients.take rows).getD j 0 * channels.getD j 0 =
        coefficients.getD j 0 * channels.getD j 0 := by
    intro j hj
    simp only [List.getD_eq_getElem?_getD, List.getElem?_take_of_lt (Finset.mem_range.mp hj)]
  have hsum := foldl_zipWith_mul (coefficients.take rows) channels (-0.0) hlength
  rw [hstart, zero_add, Finset.sum_congr rfl htake] at hsum
  unfold dot
  rw [hstart, hsum]
  cases hoffset : coefficients[rows]? with
  | none => simp [List.getD_eq_getElem?_getD, hoffset]
  | some offset => simp [List.getD_eq_getElem?_getD, hoffset]

section

variable {ν : Type} [Precision ℝ ν] (m : Matrix ℝ) (p : Pixel ν)

theorem getD_row (i : ℕ) {j : ℕ} (hj : j < m.columns) :
    (m.row i).getD j 0 = m.coefficient i j := by
  simp only [row, coefficient, List.getD_eq_getElem?_getD, List.getElem?_take_of_lt hj,
    List.getElem?_drop]

theorem getD_row_of_le (i : ℕ) {j : ℕ} (hj : m.columns ≤ j) : (m.row i).getD j 0 = 0 := by
  have hlength : (m.row i).length ≤ j := (List.length_take_le _ _).trans hj
  exact List.getD_eq_default _ _ hlength

theorem getD_append_zeros (channels : List ℝ) (k j : ℕ) :
    (channels ++ List.replicate k (0.0 : ℝ)).getD j 0 = channels.getD j 0 := by
  have hzero : (0.0 : ℝ) = 0 := by norm_num
  by_cases hj : j < channels.length
  · exact List.getD_append _ _ _ _ hj
  · have hend : channels.length ≤ j := not_lt.mp hj
    rw [List.getD_append_right _ _ _ _ hend, List.getD_eq_default _ _ hend, hzero]
    simp

/-- Channels that are supplied as zeros add nothing to a product. -/
theorem dot_append_zeros (rows : ℕ) (coefficients channels : List ℝ) (k : ℕ) :
    dot rows coefficients (channels ++ List.replicate k 0.0) = dot rows coefficients channels := by
  simp only [dot_eq_sum, getD_append_zeros]

/-- For either number of rows the channels are those of the pixel. -/
theorem getD_inputs {j : ℕ} (hj : j < m.rows) :
    (m.inputs p).getD j 0 = (p.map widen).getD j 0 := by
  have hgiven : ((p.take m.rows).map (widen : ν → ℝ)).getD j 0 = (p.map widen).getD j 0 := by
    rw [List.map_take, List.getD_eq_getElem?_getD, List.getElem?_take_of_lt hj,
      List.getD_eq_getElem?_getD]
  unfold inputs
  split
  · rw [getD_append_zeros, hgiven]
  · exact hgiven

/-- A row times the channels that it is multiplied with is the affine map. -/
theorem dot_row (hcolumns : m.columns = m.rows ∨ m.columns = m.rows + 1) (i : ℕ) :
    dot m.rows (m.row i) (m.inputs p) = m.affine (p.map widen) i := by
  have hproducts : ∀ j ∈ Finset.range m.rows,
      (m.row i).getD j 0 * (m.inputs p).getD j 0 =
        m.coefficient i j * (p.map widen).getD j 0 := by
    intro j hj
    have hrow : j < m.rows := Finset.mem_range.mp hj
    rw [m.getD_row i (by omega), m.getD_inputs p hrow]
  have hoffset : (m.row i).getD m.rows 0 = if m.hasOffset then m.coefficient i m.rows else 0 := by
    rcases hcolumns with hsquare | hmore
    · rw [m.getD_row_of_le i hsquare.le]
      simp [hasOffset, hsquare]
    · rw [m.getD_row i (by omega)]
      simp [hasOffset, hmore]
  rw [dot_eq_sum, Finset.sum_congr rfl hproducts, hoffset, affine]

/-- Every channel that the matrix has a row for is computed from the pixel as it was, and the other
ones stay. -/
theorem getElem?_apply (hsize : m.rows * m.columns ≤ m.array.size)
    (hcolumns : m.columns = m.rows ∨ m.columns = m.rows + 1) (i : ℕ) :
    (m.apply p)[i]? =
      p[i]?.map fun x => if i < m.rows then narrow (m.affine (p.map widen) i) else x := by
  unfold apply
  dsimp only
  rw [if_neg (Nat.not_lt.mpr hsize), List.getElem?_append, List.length_map, List.length_range]
  by_cases hinside : i < min m.rows p.length
  · obtain ⟨hrow, hlong⟩ := lt_min_iff.mp hinside
    rw [if_pos hinside]
    simp [hrow, hlong, m.dot_row p hcolumns]
  · rw [if_neg hinside, List.getElem?_drop, Nat.add_sub_cancel' (not_lt.mp hinside)]
    by_cases hrow : i < m.rows
    · -- The pixel has no channel for this row.
      have hmissing : p[i]? = none :=
        List.getElem?_eq_none (not_lt.mp fun hlong => hinside (lt_min hrow hlong))
      rw [hmissing, Option.map_none]
    · simp [hrow]

end

/-! ## §3 Accepted matrices -/

/-- A matrix that is built from its coefficients or read from an element. -/
inductive Accepted (m : Matrix Double) : Prop where
  | built {r c : ℕ} {values : Array Double} (h : ofValues r c values = .ok m)
  | read {options : ReadOptions} {e : Element} {common : NodeCommon}
      (h : schema.read options e = .ok (common, m))

/-- The shapes that are accepted are the square ones and those with one column more. -/
theorem ofValues_eq_ok_iff {r c : ℕ} {values : Array Double} {m : Matrix Double} :
    ofValues r c values = .ok m ↔
      0 < r ∧ (c = r ∨ c = r + 1) ∧ values.size = r * c ∧ values.size < Text.sizeBound ∧
        m = { array := { dims := [r, c], values, layout := .matrix } } := by
  unfold ofValues
  rw [bind_eq_ok]
  constructor
  · rintro ⟨a, ha, hm⟩
    obtain ⟨rfl, ⟨r', c', rest, hdims, -, hcount⟩, hbound⟩ := SampleArray.check_eq_ok_iff.mp ha
    obtain ⟨rfl, hrows, hcolumns⟩ := check_eq_ok.mp hm
    cases hdims
    have hrows' : r ≠ 0 := hrows
    have hcolumns' : ¬(c ≠ r ∧ c ≠ r + 1) := hcolumns
    exact ⟨by omega, by omega, hcount.symm, hbound, rfl⟩
  · rintro ⟨hr, hc, hcount, hbound, rfl⟩
    have hdims : ∀ d ∈ [r, c], d ≠ 0 := by
      intro d hd
      simp only [List.mem_cons, List.not_mem_nil, or_false] at hd
      omega
    refine ⟨_, SampleArray.check_eq_ok_iff.mpr ⟨rfl, ⟨r, c, [], rfl, hdims, hcount.symm⟩, hbound⟩,
      check_eq_ok.mpr ⟨rfl, ?_, ?_⟩⟩
    · show r ≠ 0
      omega
    · show ¬(c ≠ r ∧ c ≠ r + 1)
      omega

theorem Accepted.shape {m : Matrix Double} (h : m.Accepted) :
    0 < m.rows ∧ (m.columns = m.rows ∨ m.columns = m.rows + 1) ∧
      m.rows * m.columns = m.array.size := by
  cases h with
  | built h =>
    obtain ⟨hr, hc, hcount, -, rfl⟩ := ofValues_eq_ok_iff.mp h
    exact ⟨hr, hc, hcount.symm⟩
  | @read options e common h =>
    -- The array of an element is pending until it is checked together with the matrix.
    obtain ⟨-, m₁, hpending, hfinish⟩ := Schema.read_invariant
      (I := fun m => m.array.Pending options .matrix false) (J := fun _ => True)
      (fun _ _ => trivial) (fun m hm => by cases hm; exact .inl rfl)
      (fun m child m' _ hm => pending_of_readChild hm) (fun _ _ _ _ _ => trivial) h
    have hm := readable_of_finish hpending hfinish
    obtain ⟨-, hrows, hcolumns⟩ := check_eq_ok.mp hm.shape
    exact ⟨by omega, by omega, hm.rows_mul_columns⟩

/-! ## §4 Exact values -/

/-- The matrix with the exact values of its coefficients. -/
noncomputable def exact (m : Matrix Double) : Matrix ℝ where
  array :=
    { dims := m.array.dims
      values := m.array.values.map fun x => (x.value : ℝ)
      layout := m.array.layout }

@[simp] theorem rows_exact (m : Matrix Double) : m.exact.rows = m.rows := rfl

@[simp] theorem columns_exact (m : Matrix Double) : m.exact.columns = m.columns := rfl

@[simp] theorem size_exact (m : Matrix Double) : m.exact.array.size = m.array.size :=
  Array.size_map

/-- The exact values of the channels of a pixel. -/
noncomputable def exactChannels (p : Pixel Float32) : List ℝ :=
  p.map fun x => (Single.value x : ℝ)

/-- The pixel after a matrix that computes with exact values, its results being rounded in the
end. -/
noncomputable def applyExactly (round : ℝ → Float32) (m : Matrix Double) (p : Pixel Float32) :
    Pixel Float32 :=
  letI : Precision ℝ Float32 := { narrow := round, widen := fun x => (Single.value x : ℝ) }
  m.exact.apply p

/-- In exact arithmetic, whatever the rounding in the end, an accepted matrix with any number of
rows is an affine map on the channels that it has rows for: each of these becomes the combination of
all channels of the pixel by its row, missing ones being zeros, with the offset if there is a column
for it. All other channels stay, and none comes or goes. That missing channels are supplied as zeros
up to four rows and left out beyond makes no difference to a product. -/
theorem applyExactly_eq_affine {m : Matrix Double} (hm : m.Accepted) (round : ℝ → Float32)
    (p : Pixel Float32) :
    0 < m.rows ∧ (m.columns = m.rows ∨ m.columns = m.rows + 1) ∧
    (m.applyExactly round p).length = p.length ∧
    (∀ i, (m.applyExactly round p)[i]? = p[i]?.map fun x =>
      if i < m.rows then round (m.exact.affine (exactChannels p) i) else x) ∧
    ∀ i k, dot m.rows (m.exact.row i) (exactChannels p ++ List.replicate k 0.0) =
      dot m.rows (m.exact.row i) (exactChannels p) := by
  obtain ⟨hrows, hcolumns, hsize⟩ := hm.shape
  let _ : Precision ℝ Float32 := { narrow := round, widen := fun x => (Single.value x : ℝ) }
  have hexact : m.exact.rows * m.exact.columns ≤ m.exact.array.size := by
    rw [rows_exact, columns_exact, size_exact, hsize]
  refine ⟨hrows, hcolumns, m.exact.length_apply p, m.exact.getElem?_apply p hexact hcolumns, ?_⟩
  intro i k
  exact dot_append_zeros m.rows (m.exact.row i) (exactChannels p) k

/-- Five rows of ones, with an offset of one. -/
def onesMatrix : Matrix Double where
  array := { dims := [5, 6], values := Array.replicate 30 ⟨0x3ff0000000000000⟩, layout := .matrix }

/-- Two channels of a half, to which three are missing. -/
theorem applyExactly_eq_affine_short :
    onesMatrix.Accepted ∧ ∀ round : ℝ → Float32,
      (onesMatrix.applyExactly round [0.5, 0.5])[1]? = some (round 2) ∧
      (onesMatrix.applyExactly round [0.5, 0.5])[2]? = none := by
  have haccepted : onesMatrix.Accepted := by
    refine .built (ofValues_eq_ok_iff.mpr ⟨?_, .inr rfl, ?_, ?_, rfl⟩) <;> decide
  have hdecode : double.decode 0x3ff0000000000000 = .finite false (2 ^ 52) (-52) := by decide
  have hsample : (⟨0x3ff0000000000000⟩ : Double).value = 1 := by
    show (double.decode 0x3ff0000000000000).value = 1
    rw [hdecode]
    norm_num [Datum.value, signed]
  have hvalues : onesMatrix.exact.array.values = Array.replicate 30 1 := by
    show (Array.replicate 30 _).map _ = _
    rw [Array.map_replicate, hsample, Rat.cast_one]
  have hone : ∀ j, j < 6 → onesMatrix.exact.coefficient 1 j = 1 := by
    intro j hj
    rw [coefficient, hvalues, Array.toList_replicate, List.getD_replicate]
    show 1 * 6 + j < 30
    omega
  have hvalue : onesMatrix.exact.affine (exactChannels [0.5, 0.5]) 1 = 2 := by
    have hrows : onesMatrix.exact.rows = 5 := rfl
    have hoffset : onesMatrix.exact.hasOffset = true := rfl
    simp only [affine, hrows, hoffset, Finset.sum_range_succ, Finset.sum_range_zero]
    simp [hone, exactChannels, HalfDomain.value_half]
    norm_num
  refine ⟨haccepted, fun round => ?_⟩
  obtain ⟨-, -, -, hchannel, -⟩ := applyExactly_eq_affine haccepted round [0.5, 0.5]
  constructor
  · rw [hchannel 1, hvalue]
    rfl
  · rw [hchannel 2]
    rfl

end Matrix

end CommonLut
