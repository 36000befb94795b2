import CommonLut.Lookup.HalfDomain
import CommonLut.Lookup.Lattice
import CommonLut.Operator.Matrix
import CommonLut.Proofs.Lookup.ArrayElement

/-!
# Evaluation sees the values of samples

Every lookup and product takes a sample to the machine type before anything else. So two arrays of
one shape whose samples have the same values cannot be told apart by evaluation, whatever their
patterns and however they are written.

Main definition: `SampleArray.SameValues`.
Main statements: `SampleArray.SameValues.linear`, `SampleArray.SameValues.cubic`,
`SampleArray.SameValues.halfInterpolated`, `SampleArray.SameValues.trilinear`,
`SampleArray.SameValues.tetrahedral`, `SampleArray.SameValues.matrix_apply`.
-/

namespace CommonLut

namespace SampleArray

/-- The same shape, and samples of the same values. -/
structure SameValues (a b : SampleArray Double) : Prop where
  dims : a.dims = b.dims
  layout : a.layout = b.layout
  values : a.values.toList.map Double.toFloat = b.values.toList.map Double.toFloat

theorem sameValues_reread (a : SampleArray Double) : SameValues a.reread a := by
  refine ⟨dims_reread a, layout_reread a, ?_⟩
  rw [values_reread, List.map_map]
  refine List.map_congr_left fun x _ => ?_
  simp only [Function.comp_apply]
  split
  · rfl
  · exact SampleEncoding.toFloat_respelled _ x

/-! ## §1 Shape and single samples -/

section

variable {a b : SampleArray Double} (h : SameValues a b)

include h

theorem SameValues.size : a.size = b.size := by
  have hlength := congrArg List.length h.values
  simpa [SampleArray.size] using hlength

theorem SameValues.columns : a.columns = b.columns := by
  rw [SampleArray.columns, SampleArray.columns, h.dims, h.layout]

theorem SameValues.rows : a.rows = b.rows := by
  rw [SampleArray.rows, SampleArray.rows, h.columns, h.size]

theorem SameValues.flat : (a.flat : Nat → Float32) = b.flat := by
  funext i
  have hget : a.values[i]?.map Double.toFloat = b.values[i]?.map Double.toFloat := by
    have hi := congrArg (·[i]?) h.values
    simpa [List.getElem?_map] using hi
  have hnarrow : ∀ x : Option Double, (x.elim 0.0 narrow : Float32) =
      (x.map Double.toFloat).elim 0.0 Binary.Machine.narrow := by
    intro x
    cases x <;> rfl
  rw [SampleArray.flat, SampleArray.flat, hnarrow, hnarrow, hget]

theorem SameValues.sample : (a.sample : Int → Nat → Float32) = b.sample := by
  funext row channel
  simp only [SampleArray.sample, clampRow, channelColumn, h.rows, h.columns, h.flat]

theorem SameValues.rowIndex : (a.rowIndex : Float32 → Float32) = b.rowIndex := by
  funext position
  simp only [SampleArray.rowIndex, h.rows]

/-! ## §2 Lookups -/

theorem SameValues.linear : (a.linear : Float32 → Nat → Float32) = b.linear := by
  funext position channel
  simp only [SampleArray.linear, h.rowIndex, h.sample]

theorem SameValues.cubic : (a.cubic : Float32 → Nat → Float32) = b.cubic := by
  funext position channel
  simp only [SampleArray.cubic, h.rows, h.rowIndex, h.sample, h.linear]

theorem SameValues.halfInterpolated :
    (a.halfInterpolated : Float32 → Nat → Float32) = b.halfInterpolated := by
  funext position channel
  simp only [SampleArray.halfInterpolated, h.sample]

theorem SameValues.axes : a.axes = b.axes := by
  simp only [SampleArray.axes, h.dims]

theorem SameValues.corner : (a.corner : Int → Int → Int → Triple Float32) = b.corner := by
  funext r g b'
  simp only [SampleArray.corner, h.axes, h.size, h.flat]

theorem SameValues.trilinear : (a.trilinear : Triple Float32 → Triple Float32) = b.trilinear := by
  funext p
  simp only [SampleArray.trilinear, h.axes, h.corner]

theorem SameValues.tetrahedral :
    (a.tetrahedral : Triple Float32 → Triple Float32) = b.tetrahedral := by
  funext p
  simp only [SampleArray.tetrahedral, h.axes, h.corner]

end

end SampleArray

/-! ## §3 Products -/

namespace Matrix

/-- Products are taken of the values, not of the spellings. -/
theorem products_congr {xs ys : List Double} (h : xs.map Double.toFloat = ys.map Double.toFloat)
    (channels : List Double) : xs.zipWith (· * ·) channels = ys.zipWith (· * ·) channels := by
  induction xs generalizing ys channels with
  | nil =>
    rw [List.map_nil, eq_comm, List.map_eq_nil_iff] at h
    rw [h]
  | cons x xs ih =>
    cases ys with
    | nil => cases h
    | cons y ys =>
      cases channels with
      | nil => rfl
      | cons c channels =>
        rw [List.map_cons, List.map_cons, List.cons.injEq] at h
        have hxy : x * c = y * c :=
          congrArg (fun v : Float => Double.ofFloat (v * c.toFloat)) h.1
        rw [List.zipWith_cons_cons, List.zipWith_cons_cons, hxy, ih h.2 channels]

theorem dot_congr (rows : Nat) {xs ys : List Double}
    (h : xs.map Double.toFloat = ys.map Double.toFloat) (channels : List Double) :
    dot rows xs channels = dot rows ys channels := by
  have htake : (xs.take rows).map Double.toFloat = (ys.take rows).map Double.toFloat := by
    rw [List.map_take, List.map_take, h]
  have hoffset : xs[rows]?.map Double.toFloat = ys[rows]?.map Double.toFloat := by
    rw [← List.getElem?_map, ← List.getElem?_map, h]
  unfold dot
  rw [products_congr htake channels]
  -- A row has an offset after its coefficients or it has none, and the other row is as long.
  cases hx : xs[rows]? with
  | none =>
    cases hy : ys[rows]? with
    | none => rfl
    | some y =>
      rw [hx, hy] at hoffset
      cases hoffset
  | some x =>
    cases hy : ys[rows]? with
    | none =>
      rw [hx, hy] at hoffset
      cases hoffset
    | some y =>
      rw [hx, hy] at hoffset
      have hxy : x.toFloat = y.toFloat := Option.some.inj hoffset
      exact congrArg (fun v : Float => Double.ofFloat (Double.toFloat _ + v)) hxy

end Matrix

theorem SampleArray.SameValues.matrix_apply {a b : SampleArray Double} (h : SameValues a b) :
    (Matrix.apply { array := a } : Pixel Float32 → Pixel Float32) =
      Matrix.apply { array := b } := by
  have hrows : Matrix.rows { array := a } = Matrix.rows { array := b } := by
    rw [Matrix.rows, Matrix.rows, h.dims]
  -- A product rounds its coefficients first, so only the rounded rows have to agree.
  have hrow : ∀ i, (Matrix.row { array := a } i).map Double.toFloat =
      (Matrix.row { array := b } i).map Double.toFloat := by
    intro i
    unfold Matrix.row
    rw [List.map_take, List.map_drop, List.map_take, List.map_drop, h.values]
    rw [show Matrix.columns { array := a } = Matrix.columns { array := b } from h.columns]
  have hdot : ∀ i channels, Matrix.dot (Matrix.rows { array := b }) (Matrix.row { array := a } i)
      channels = Matrix.dot (Matrix.rows { array := b }) (Matrix.row { array := b } i) channels :=
    fun i channels => Matrix.dot_congr _ (hrow i) channels
  have hinputs : (Matrix.inputs { array := a } : Pixel Float32 → List Double) =
      Matrix.inputs { array := b } := by
    funext pixel
    simp only [Matrix.inputs, hrows]
  funext pixel
  unfold Matrix.apply
  dsimp only
  rw [hrows, hinputs, h.size, show Matrix.columns { array := a } =
    Matrix.columns { array := b } from h.columns]
  simp only [hdot]

end CommonLut
