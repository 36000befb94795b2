import CommonLut.Scalar

/-!
# Doubles as patterns

A sample of an array may have been given by its bit pattern, and is written as one. The machine
type has a single value that is no number; a pattern keeps its sign and payload, so that a document
gets back what was read from it. Arithmetic and comparison are those of the machine type.

Main definitions: `Double`, its `Scalar` instance.
-/

namespace CommonLut

/-- A double-precision value, given by its bit pattern. -/
structure Double where
  bits : UInt64
deriving Repr, Inhabited

namespace Double

open Binary

/-- The machine number with this pattern. -/
def toFloat (x : Double) : Float := Float.ofBits x.bits

/-- The pattern of a machine number. -/
def ofFloat (x : Float) : Double := ⟨x.toBits⟩

/-- What the pattern stands for. -/
def datum (x : Double) : Datum := double.decode x.bits.toNat

/-- The double nearest to a datum. -/
def ofDatum (d : Datum) : Double := ⟨UInt64.ofNat (double.ofDatum d)⟩

/-- Equality of the values: both zeros are equal, and what is no number equals nothing. -/
instance : BEq Double where
  beq x y := x.toFloat == y.toFloat

/-- A machine operation on one value. -/
@[inline] def lift (f : Float → Float) (x : Double) : Double := ofFloat (f x.toFloat)

/-- A machine operation on two values. -/
@[inline] def lift₂ (f : Float → Float → Float) (x y : Double) : Double :=
  ofFloat (f x.toFloat y.toFloat)

instance : Scalar Double where
  add := lift₂ (· + ·)
  sub := lift₂ (· - ·)
  mul := lift₂ (· * ·)
  div := lift₂ (· / ·)
  neg := lift (- ·)
  lt x y := x.toFloat < y.toFloat
  le x y := x.toFloat ≤ y.toFloat
  ofScientific m s e := ofFloat (OfScientific.ofScientific m s e)
  decLt x y := inferInstanceAs (Decidable (x.toFloat < y.toFloat))
  decLe x y := inferInstanceAs (Decidable (x.toFloat ≤ y.toFloat))
  ofNat n := ofFloat (Scalar.ofNat n)
  isNaN x := Scalar.isNaN x.toFloat
  isFinite x := Scalar.isFinite x.toFloat
  abs := lift Scalar.abs
  floor := lift Scalar.floor
  round := lift Scalar.round
  toInt x := Scalar.toInt x.toFloat

instance : Precision Double Float32 where
  narrow x := narrow x.toFloat
  widen x := ofFloat (widen x)

end Double

end CommonLut
