import CommonLut.Error
import CommonLut.SampleEncoding
import CommonLut.Scalar

/-!
# Sampled arrays

An array holds samples in row-major order under a list of dimensions. A lookup table has its
channel count as the last dimension, and the lattice of a three-dimensional table varies slowest in
red and fastest in blue. A matrix has rows and columns as its first two dimensions.

Main definitions: `SampleArray`, `SampleArray.check`, `SampleArray.table`, `SampleArray.matrix`,
`SampleArray.ramp`, `SampleArray.identityLattice`.
-/

namespace CommonLut

/-- What the dimensions of an array mean. -/
inductive ArrayLayout where
  | table
  | matrix
deriving DecidableEq, Repr, Inhabited

/-- Samples under dimensions, with what is known about how they are written. -/
structure SampleArray (ω : Type) where
  dims : List Nat := []
  values : Array ω := #[]
  layout : ArrayLayout := .table
  /-- Whether the samples are code values of an integer depth. -/
  integers : Bool := false
  /-- Whether the samples are written as half patterns. -/
  rawHalfs : Bool := false
  encoding : SampleEncoding := .text
deriving BEq, Repr, Inhabited

namespace SampleArray

variable {ω : Type}

/-! ## §1 Shape -/

/-- The number of samples. -/
def size (a : SampleArray ω) : Nat := a.values.size

/-- The number of samples in a row. -/
def columns (a : SampleArray ω) : Nat :=
  match a.layout with
  | .table => a.dims.getLast?.getD 0
  | .matrix => a.dims[1]?.getD 0

/-- The number of full rows; an array without columns has none. -/
def rows (a : SampleArray ω) : Nat :=
  if a.columns = 0 then 0 else a.size / a.columns

/-- The dimensions whose product is the number of samples. -/
def countedDims (a : SampleArray ω) : List Nat :=
  match a.layout with
  | .table => a.dims
  | .matrix => a.dims.take 2

/-- Whether the samples fill the dimensions. -/
def check (a : SampleArray ω) : Except ContentFault (SampleArray ω) :=
  let expected := a.countedDims.foldl (· * ·) 1
  if a.dims.contains 0 then .error (.zeroDimension a.dims)
  else if a.columns = 0 ∨ a.size % a.columns ≠ 0 then .error (.ragged a.size a.columns)
  else if Text.sizeBound ≤ expected then .error (.hugeDimensions a.dims)
  else if expected ≠ a.size then .error (.sampleCount a.dims expected a.size)
  else .ok a

/-! ## §2 Building -/

/-- A lookup table. -/
def table (dims : List Nat) (values : Array ω) : Except ContentFault (SampleArray ω) :=
  check { dims, values }

/-- A matrix. -/
def matrix (rows columns : Nat) (values : Array ω) : Except ContentFault (SampleArray ω) :=
  check { dims := [rows, columns], values, layout := .matrix }

variable [Scalar ω]

/-- The one-dimensional table that gives back its input: at least two rows and one channel. -/
def ramp (size channels : Nat) : SampleArray ω :=
  let size := max size 2
  let channels := max channels 1
  { dims := [size, channels]
    values := ((List.range size).flatMap fun i =>
      List.replicate channels (Scalar.ofNat i / Scalar.ofNat (size - 1))).toArray }

/-- The lattice that gives back its input: at least two points on each axis. -/
def identityLattice (size : Nat) : SampleArray ω :=
  let size := max size 2
  let coordinate (i : Nat) : ω := Scalar.ofNat i / Scalar.ofNat (size - 1)
  { dims := [size, size, size, 3]
    values := ((List.range size).flatMap fun r =>
      (List.range size).flatMap fun g =>
        (List.range size).flatMap fun b => [coordinate r, coordinate g, coordinate b]).toArray }

end SampleArray

end CommonLut
