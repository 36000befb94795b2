import CommonLut.Lookup.Curve

/-!
# Three-dimensional lookup

A lattice of colours is read at a normalized colour. The colour falls into a cell of the lattice;
its place in the cell is given by one fraction on each axis. Trilinear interpolation blends the
eight corners of the cell; tetrahedral interpolation cuts the cell into six tetrahedra around its
main diagonal and blends the four corners of one of them.

Main definitions: `Triple`, `SampleArray.corner`, `SampleArray.nearestPoint`,
`SampleArray.trilinear`, `SampleArray.tetrahedral`.
-/

namespace CommonLut

/-- Red, green and blue. -/
abbrev Triple (α : Type) := α × α × α

namespace Triple

/-- Applies a function to each channel. -/
@[inline] def map {α β : Type} (f : α → β) (p : Triple α) : Triple β :=
  (f p.1, f p.2.1, f p.2.2)

/-- Applies a function of two values to each channel. -/
@[inline] def map₂ {α β γ : Type} (f : α → β → γ) (p : Triple α) (q : Triple β) : Triple γ :=
  (f p.1 q.1, f p.2.1 q.2.1, f p.2.2 q.2.2)

end Triple

namespace SampleArray

variable {ω ν : Type} [Scalar ν] [Precision ω ν]

/-! ## §1 Lattice points -/

/-- The number of points on each axis, zero where the array has no such dimension. -/
def axes (a : SampleArray ω) : Triple Nat :=
  (a.dims[0]?.getD 0, a.dims[1]?.getD 0, a.dims[2]?.getD 0)

/-- The index of an axis nearest to an integer. -/
def clampPoint (points : Nat) (i : Int) : Nat :=
  min i.toNat (points - 1)

/-- The colour at a lattice point, each axis clamped; black when the array is no lattice. -/
@[specialize] def corner (a : SampleArray ω) (r g b : Int) : Triple ν :=
  let (nr, ng, nb) := a.axes
  if nr = 0 ∨ ng = 0 ∨ nb = 0 ∨ a.size < nr * ng * nb * 3 then (0.0, 0.0, 0.0)
  else
    let i := ((clampPoint nr r * ng + clampPoint ng g) * nb + clampPoint nb b) * 3
    (a.flat i, a.flat (i + 1), a.flat (i + 2))

/-- The place of a normalized coordinate on an axis. -/
@[specialize] def axisPlace (points : Nat) (x : ν) : ν :=
  Scalar.unitClamp x * Scalar.ofNat (points - 1)

/-- The colour at the lattice point nearest to a normalized colour. -/
@[specialize] def nearestPoint (a : SampleArray ω) (p : Triple ν) : Triple ν :=
  let pick (points : Nat) (x : ν) : Int := Scalar.toInt (Scalar.round (axisPlace points x))
  let (nr, ng, nb) := a.axes
  a.corner (pick nr p.1) (pick ng p.2.1) (pick nb p.2.2)

/-! ## §2 Cells -/

/-- The cell of a normalized coordinate on an axis, and the fraction inside the cell. -/
@[specialize] def cell (points : Nat) (x : ν) : Int × ν :=
  let place := axisPlace points x
  let lower := Scalar.floor place
  (Scalar.toInt lower, place - lower)

/-- Blends two colours. -/
@[specialize] def blendColors (p q : Triple ν) (t : ν) : Triple ν :=
  Triple.map₂ (fun x y => Scalar.blend x y t) p q

/-- Trilinear interpolation: along blue, then green, then red. -/
@[specialize] def trilinear (a : SampleArray ω) (p : Triple ν) : Triple ν :=
  let (nr, ng, nb) := a.axes
  let (r, fr) := cell nr p.1
  let (g, fg) := cell ng p.2.1
  let (b, fb) := cell nb p.2.2
  let edge (i j : Int) : Triple ν :=
    blendColors (a.corner (r + i) (g + j) b) (a.corner (r + i) (g + j) (b + 1)) fb
  let face (i : Int) : Triple ν := blendColors (edge i 0) (edge i 1) fg
  blendColors (face 0) (face 1) fr

/-- The walk along three edges of a cell from corner `c0` to `c3`, with the fraction taken of each
edge. -/
@[specialize] def walk (c0 c1 c2 c3 : Triple ν) (t1 t2 t3 : ν) : Triple ν :=
  let along (x0 x1 x2 x3 : ν) : ν :=
    x0 + t1 * (x1 - x0) + t2 * (x2 - x1) + t3 * (x3 - x2)
  (along c0.1 c1.1 c2.1 c3.1, along c0.2.1 c1.2.1 c2.2.1 c3.2.1,
    along c0.2.2 c1.2.2 c2.2.2 c3.2.2)

/-- Tetrahedral interpolation: the order of the three fractions selects the tetrahedron, and the
walk goes along the axis of the largest fraction first. -/
@[specialize] def tetrahedral (a : SampleArray ω) (p : Triple ν) : Triple ν :=
  let (nr, ng, nb) := a.axes
  let (r, fr) := cell nr p.1
  let (g, fg) := cell ng p.2.1
  let (b, fb) := cell nb p.2.2
  let c (i j k : Int) : Triple ν := a.corner (r + i) (g + j) (b + k)
  if fg < fr then
    if fb < fg then walk (c 0 0 0) (c 1 0 0) (c 1 1 0) (c 1 1 1) fr fg fb
    else if fb < fr then walk (c 0 0 0) (c 1 0 0) (c 1 0 1) (c 1 1 1) fr fb fg
    else walk (c 0 0 0) (c 0 0 1) (c 1 0 1) (c 1 1 1) fb fr fg
  else if fb < fg then
    if fb < fr then walk (c 0 0 0) (c 0 1 0) (c 1 1 0) (c 1 1 1) fg fr fb
    else walk (c 0 0 0) (c 0 1 0) (c 0 1 1) (c 1 1 1) fg fb fr
  else walk (c 0 0 0) (c 0 0 1) (c 0 1 1) (c 1 1 1) fb fg fr

end SampleArray

end CommonLut
