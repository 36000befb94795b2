import CommonLut.Lookup.ArrayElement
import CommonLut.Lookup.HalfDomain
import CommonLut.Lookup.IndexMap
import CommonLut.Operator.Schema
import CommonLut.Pixel

/-!
# One-dimensional lookup nodes

Each channel is looked up in its column of a table whose samples are in the output depth. The input
reaches the table through an index map if there is one, as a half float in the half domain, and
normalized otherwise.

Main definitions: `Lut1D`, `Lut1D.lookup`, `Lut1D.apply`, `Lut1D.schema`.
-/

namespace CommonLut

/-- The interpolation between rows. -/
inductive CurveInterpolation where
  | linear
  | cubic
deriving DecidableEq, Repr

namespace CurveInterpolation

/-- The name of an interpolation. -/
def token : CurveInterpolation → String
  | linear => "linear"
  | cubic => "cubic"

/-- The interpolation with a token. -/
def read (token : String) : Except Error CurveInterpolation :=
  readToken "LUT1D interpolation" ([linear, cubic].map fun s => (s.token, s)) token

end CurveInterpolation

/-- A table with the way its rows are found and how it is written. -/
structure Lut1D where
  array : SampleArray Double := {}
  indexMaps : List (IndexMap Float) := []
  interpolation : Option CurveInterpolation := none
  /-- Whether the rows are those of the half patterns. -/
  halfDomain : Bool := false
  /-- Whether the samples are written as half patterns. -/
  rawHalfs : Bool := false
deriving BEq, Repr

namespace Lut1D

/-! ## §1 Evaluation -/

/-- The index map of a channel: a single one serves every channel, and the last one serves the
channels after it. -/
def indexMap? (l : Lut1D) (channel : Nat) : Option (IndexMap Float) :=
  (l.indexMaps[channel]?).or l.indexMaps.getLast?

/-- Where an input value stands in the table. -/
def position (l : Lut1D) (input : BitDepth) (channel : Nat) (x : Float32) : Float32 :=
  match l.indexMap? channel with
  | some m => m.apply x / Float32.ofNat (max (l.array.rows - 1) 1)
  | none => if l.halfDomain then x else input.normalize x

/-- The looked up value of a channel. -/
def lookup (l : Lut1D) (input : BitDepth) (channel : Nat) (x : Float32) : Float32 :=
  let position := l.position input channel x
  if l.interpolation = some .cubic then l.array.cubic position channel
  else if l.halfDomain then l.array.halfInterpolated position channel
  else l.array.linear position channel

/-- The pixel after the lookup. -/
def apply (l : Lut1D) (input : BitDepth) (pixel : Pixel Float32) : Pixel Float32 :=
  pixel.mapColor (l.lookup input)

/-! ## §2 In documents -/

/-- How the table stands in its element. -/
def schema : Schema Lut1D where
  ownAttributes := ["interpolation", "halfDomain", "rawHalfs"]
  readAttributes options e := do
    let interpolation ← readToken? CurveInterpolation.read e "interpolation"
    let halfDomain := (← e.flagAttribute "halfDomain").getD false
    let rawHalfs := (← e.flagAttribute "rawHalfs").getD false
    if halfDomain then options.require .autodesk "halfDomain"
    if rawHalfs then options.require .autodesk "rawHalfs"
    return { interpolation, halfDomain, rawHalfs }
  readChild options l child :=
    match child.name with
    | "IndexMap" => do
      return some { l with indexMaps := l.indexMaps ++ [← IndexMap.read options child] }
    | "Array" => do
      return some { l with array := ← SampleArray.read options .table l.rawHalfs child }
    | _ => .ok none
  finish element output l :=
    let channels := l.array.columns
    if l.array.size = 0 then .error (.content (.noArray element))
    else if l.array.dims.length ≠ 2 ∨ ¬(channels = 1 ∨ channels = 3) then
      .error (.content (.curveShape l.array.dims))
    else .ok { l with array := { l.array with integers := output.isInteger && !l.rawHalfs } }
  writeAttributes l :=
    (l.interpolation.map fun s => ("interpolation", s.token)).toList ++
      (if l.halfDomain then [("halfDomain", "true")] else []) ++
      (if l.rawHalfs then [("rawHalfs", "true")] else [])
  writeChildren l :=
    l.indexMaps.map IndexMap.write ++ [SampleArray.write { l.array with rawHalfs := l.rawHalfs }]

end Lut1D

end CommonLut
