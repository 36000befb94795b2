import CommonLut.Binary.Half
import CommonLut.Lookup.Curve

/-!
# Lookup over the half floats

A table with one row for each half pattern is indexed by the pattern nearest to the input. Between
two half values the table is interpolated towards the neighbour on the side of the input.

Main definitions: `HalfDomain.neighbor`, `SampleArray.halfNearest`, `SampleArray.halfInterpolated`.
-/

namespace CommonLut

namespace HalfDomain

open Binary

/-- The row read for an input that is no number. -/
def nanRow : Int := 31745

/-- The row of positive infinity. -/
def positiveInfinityRow : Int := 31744

/-- The row of negative infinity. -/
def negativeInfinityRow : Int := 64512

/-- The pattern next to `bits` upwards or downwards; both zeros lie between the two smallest
subnormals. -/
def neighbor (bits : UInt16) (base : Float32) (upwards : Bool) : UInt16 :=
  if bits &&& 0x7fff == 0 then (if upwards then 0x0001 else 0x8001)
  else if upwards == decide (0.0 < base) then bits + 1
  else bits - 1

end HalfDomain

namespace SampleArray

open Binary HalfDomain

variable {ω : Type} [Precision ω Float32]

/-- The row of the half pattern nearest to a position. -/
@[specialize] def halfNearest (a : SampleArray ω) (position : Float32) (channel : Nat) : Float32 :=
  a.sample (Half.ofFloat32 position).toNat channel

/-- Interpolation between the nearest half value and its neighbour on the side of the position.
The row itself is read where there is nothing to interpolate: at a half value, and where one of
the two ends is infinite. -/
@[specialize] def halfInterpolated (a : SampleArray ω) (position : Float32) (channel : Nat) :
    Float32 :=
  if position.isNaN then a.sample nanRow channel
  else if position.isInf then
    a.sample (if 0.0 < position then positiveInfinityRow else negativeInfinityRow) channel
  else
    let bits := Half.ofFloat32 position
    let base := Half.toFloat32 bits
    let exact : Float32 := a.sample bits.toNat channel
    let residual := position - base
    if base.isInf || residual == 0.0 then exact
    else
      let next := neighbor bits base (decide (0.0 < residual))
      let ahead := Half.toFloat32 next
      if ahead.isInf then exact
      else Scalar.blend exact (a.sample next.toNat channel) (residual / (ahead - base))

end SampleArray

end CommonLut
