import CommonLut.Lookup.ArrayElement
import CommonLut.Lookup.IndexMap
import CommonLut.Lookup.Lattice
import CommonLut.Operator.Schema
import CommonLut.Pixel

/-!
# Three-dimensional lookup nodes

The colour is looked up in a lattice whose samples are in the output depth. Each coordinate reaches
its axis through an index map if there is one for it, and normalized otherwise.

Main definitions: `Lut3D`, `Lut3D.lookup`, `Lut3D.apply`, `Lut3D.schema`.
-/

namespace CommonLut

/-- The interpolation inside a cell of the lattice. -/
inductive LatticeInterpolation where
  | trilinear
  | tetrahedral
deriving DecidableEq, Repr

namespace LatticeInterpolation

/-- The name of an interpolation. -/
def token : LatticeInterpolation → String
  | trilinear => "trilinear"
  | tetrahedral => "tetrahedral"

/-- The interpolation with a token. -/
def read (token : String) : Except Error LatticeInterpolation :=
  readToken "LUT3D interpolation" ([trilinear, tetrahedral].map fun s => (s.token, s)) token

end LatticeInterpolation

/-- A lattice with the way its cells are found. -/
structure Lut3D where
  array : SampleArray Double := {}
  indexMaps : List (IndexMap Float) := []
  interpolation : Option LatticeInterpolation := none
deriving BEq, Repr

namespace Lut3D

/-! ## §1 Evaluation -/

/-- The index map of an axis: a single one serves every axis. -/
def indexMap? (l : Lut3D) (axis : Nat) : Option (IndexMap Float) :=
  match l.indexMaps with
  | [m] => some m
  | ms => ms[axis]?

/-- Where an input value stands on an axis. -/
def position (l : Lut3D) (input : BitDepth) (axis : Nat) (x : Float32) : Float32 :=
  match l.indexMap? axis with
  | some m =>
    let points := l.array.dims[axis]?.getD 2
    m.apply x / Float32.ofNat (max (points - 1) 1)
  | none => input.normalize x

/-- The looked up colour at a normalized one. -/
def lookup (l : Lut3D) (p : Triple Float32) : Triple Float32 :=
  match l.interpolation.getD .trilinear with
  | .trilinear => l.array.trilinear p
  | .tetrahedral => l.array.tetrahedral p

/-- The pixel after the lookup; one with fewer than three channels stays as it is. -/
def apply (l : Lut3D) (input : BitDepth) (pixel : Pixel Float32) : Pixel Float32 :=
  pixel.mapTriple fun (r, g, b) =>
    l.lookup (l.position input 0 r, l.position input 1 g, l.position input 2 b)

/-! ## §2 In documents -/

/-- How the lattice stands in its element. -/
def schema : Schema Lut3D where
  ownAttributes := ["interpolation"]
  readAttributes _ e := do
    return { interpolation := ← readToken? LatticeInterpolation.read e "interpolation" }
  readChild options l child :=
    match child.name with
    | "IndexMap" => do
      return some { l with indexMaps := l.indexMaps ++ [← IndexMap.read options child] }
    | "Array" => do
      return some { l with array := ← SampleArray.read options .table false child }
    | _ => .ok none
  finish element output l :=
    if l.array.size = 0 then .error (.content (.noArray element))
    else if l.array.dims.length ≠ 4 ∨ l.array.dims[3]? ≠ some 3 then
      .error (.content (.latticeShape l.array.dims))
    else .ok { l with array := { l.array with integers := output.isInteger } }
  writeAttributes l := (l.interpolation.map fun s => ("interpolation", s.token)).toList
  writeChildren l := l.indexMaps.map IndexMap.write ++ [l.array.write]

end Lut3D

end CommonLut
