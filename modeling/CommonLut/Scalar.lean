import CommonLut.Binary.Machine

/-!
# Numbers as the evaluation kernels see them

Every evaluation kernel of the library is written once, over the operations of this module, and
runs with machine floats: parameters and samples are doubles, channel values are single-precision.
The same kernel read over an exact field is the mathematical function that it approximates.

Main definitions:
- `Scalar`: arithmetic, comparison and rounding to whole numbers;
- `Analytic`: powers and logarithms on top of it;
- `Precision`: the passage between the wide type of parameters and the narrow type of channels;
- the machine instances `Float` and `Float32`.
-/

namespace CommonLut

/-! ## §1 The operations -/

/-- Arithmetic with comparison. Constants are decimal literals such as `0.5`. -/
class Scalar (α : Type) extends Add α, Sub α, Mul α, Div α, Neg α, LT α, LE α, BEq α,
    OfScientific α where
  decLt : DecidableLT α
  decLe : DecidableLE α
  /-- The nearest representation of a natural number. -/
  ofNat : Nat → α
  /-- Whether a value is no number at all. -/
  isNaN : α → Bool
  /-- Whether a value is a number and not infinite. -/
  isFinite : α → Bool
  abs : α → α
  floor : α → α
  /-- The nearest whole number, a half going away from zero. -/
  round : α → α
  /-- The whole part as an integer, clamped to sixty-four bits; zero for what is no number. -/
  toInt : α → Int

attribute [reducible, instance] Scalar.decLt Scalar.decLe

/-- Powers and logarithms. -/
class Analytic (α : Type) extends Scalar α where
  pow : α → α → α
  log2 : α → α
  log10 : α → α

/-- A wide type of parameters and samples, together with the narrow type of channel values. -/
class Precision (ω : Type) (ν : outParam Type) where
  narrow : ω → ν
  widen : ν → ω

export Precision (narrow widen)

namespace Scalar

variable {α : Type} [Scalar α]

/-! ## §2 Bounds

What is no number is replaced by the bound: clamping always gives a number. -/

/-- The value, or the bound when the value is not above it. -/
@[specialize] def atLeast (bound x : α) : α := if bound < x then x else bound

/-- The value, or the bound when the value is not below it. -/
@[specialize] def atMost (bound x : α) : α := if x < bound then x else bound

/-- The value clamped to the unit interval. -/
@[specialize] def unitClamp (x : α) : α := atMost 1.0 (atLeast 0.0 x)

/-- The larger of two values, the second one if they are equal; a value that is no number gives way
to the other one. -/
@[specialize] def larger (x y : α) : α := if isNaN y then x else atLeast y x

/-- The smaller of two values, the second one if they are equal; a value that is no number gives way
to the other one. -/
@[specialize] def smaller (x y : α) : α := if isNaN y then x else atMost y x

/-- The point at fraction `t` of the way from `x` to `y`. -/
@[specialize] def blend (x y t : α) : α := x + (y - x) * t

end Scalar

/-! ## §3 Machine floats -/

instance : Scalar Float where
  decLt := inferInstance
  decLe := inferInstance
  ofNat := Binary.Machine.doubleOfNat
  isNaN := Float.isNaN
  isFinite := Float.isFinite
  abs := Float.abs
  floor := Binary.Machine.onDouble Binary.Datum.floor
  round := Binary.Machine.onDouble Binary.Datum.round
  toInt := Binary.Machine.doubleToInt

instance : Scalar Float32 where
  decLt := inferInstance
  decLe := inferInstance
  ofNat := Binary.Machine.singleOfNat
  isNaN := Float32.isNaN
  isFinite := Float32.isFinite
  abs := Float32.abs
  floor := Binary.Machine.onSingle Binary.Datum.floor
  round := Binary.Machine.onSingle Binary.Datum.round
  toInt := Binary.Machine.singleToInt

instance : Analytic Float where
  pow := Float.pow
  log2 := Float.log2
  log10 := Float.log10

instance : Precision Float Float32 where
  narrow := Binary.Machine.narrow
  widen := Binary.Machine.widen

end CommonLut
