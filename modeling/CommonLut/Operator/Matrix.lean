import CommonLut.Lookup.ArrayElement
import CommonLut.Operator.Schema
import CommonLut.Pixel

/-!
# Matrix nodes

A matrix maps a pixel affinely: channel `i` becomes the product of row `i` with the channels, plus
an offset when there is one column more than there are rows. The coefficients carry any scaling
between bit depths, so nothing is normalized. Channels beyond the rows are left alone.

Main definitions: `Matrix`, `Matrix.apply`, `Matrix.schema`.
-/

namespace CommonLut

/-- The coefficients, with the output channels as rows. -/
structure Matrix (ω : Type) where
  array : SampleArray ω := {}
deriving BEq, Repr

namespace Matrix

variable {ω : Type}

/-! ## §1 Shape -/

/-- The number of output channels. -/
def rows (m : Matrix ω) : Nat := m.array.dims.head?.getD 0

/-- The number of coefficients for an output channel. -/
def columns (m : Matrix ω) : Nat := m.array.columns

/-- Whether the last column is an offset. -/
def hasOffset (m : Matrix ω) : Bool := m.columns == m.rows + 1

/-- A matrix is square or has one column more. -/
def check (m : Matrix ω) : Except ContentFault (Matrix ω) :=
  if m.rows = 0 then .error .emptyMatrix
  else if m.columns ≠ m.rows ∧ m.columns ≠ m.rows + 1 then
    .error (.matrixShape m.rows m.columns)
  else .ok m

/-- The matrix with the given coefficients in row-major order. -/
def ofValues (rows columns : Nat) (values : Array ω) : Except ContentFault (Matrix ω) := do
  check { array := ← SampleArray.matrix rows columns values }

/-- The diagonal matrix of three factors. -/
def scale [Scalar ω] (r g b : ω) : Matrix ω :=
  { array :=
    { dims := [3, 3], values := #[r, 0.0, 0.0, 0.0, g, 0.0, 0.0, 0.0, b], layout := .matrix } }

/-- The matrix that changes nothing. -/
def identity [Scalar ω] : Matrix ω := scale 1.0 1.0 1.0

/-! ## §2 Evaluation -/

section

variable {ν : Type} [Scalar ω] [Scalar ν] [Precision ω ν]

/-- The coefficients of a row. -/
def row (m : Matrix ω) (i : Nat) : List ω :=
  ((m.array.values.toList).drop (i * m.columns)).take m.columns

/-- The product of a row with the channels, plus the offset if the row has one. -/
@[specialize] def dot (rows : Nat) (coefficients channels : List ω) : ω :=
  let sum := ((coefficients.take rows).zipWith (· * ·) channels).foldl (· + ·) (-0.0)
  match coefficients[rows]? with
  | some offset => sum + offset
  | none => sum

/-- The channels that a row is multiplied with. Up to four rows, missing channels are zeros;
beyond, they are left out of the product. -/
@[specialize] def inputs (m : Matrix ω) (pixel : Pixel ν) : List ω :=
  let given := (pixel.take m.rows).map widen
  if m.rows ≤ 4 then given ++ List.replicate (m.rows - given.length) 0.0 else given

/-- The pixel after the matrix. Every channel is computed from the pixel as it was. -/
@[specialize] def apply (m : Matrix ω) (pixel : Pixel ν) : Pixel ν :=
  let count := min m.rows pixel.length
  if m.array.size < m.rows * m.columns then pixel
  else
    let channels := m.inputs pixel
    (List.range count).map (fun i => narrow (dot m.rows (m.row i) channels)) ++
      pixel.drop count

end

/-! ## §3 In documents -/

/-- How the matrix stands in its element. -/
def schema : Schema (Matrix Double) where
  readAttributes _ _ := .ok {}
  readChild options _ child :=
    if child.name = "Array" then do
      return some { array := ← SampleArray.read options .matrix false child }
    else .ok none
  finish element _ m :=
    if m.array.size = 0 then .error (.content (.noArray element))
    else m.check.mapError .content
  writeChildren m := [m.array.write]

end Matrix

end CommonLut
