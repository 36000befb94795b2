import CommonLut.Binary.Format

/-!
# Machine floats by their patterns

Passing between the two machine types and from and to whole numbers, and functions of decoded
patterns as functions of machine floats. Unlike the conversions and roundings of the processor,
which agree with these, the definitions can be computed with in a proof.

Main definitions: `Machine.narrow`, `Machine.widen`, `Machine.onDouble`, `Machine.onSingle`,
`Machine.doubleOfNat`, `Machine.singleOfNat`, `Machine.doubleToInt`, `Machine.singleToInt`.
-/

namespace CommonLut.Binary.Machine

/-- The single-precision value nearest to a double. -/
def narrow (x : Float) : Float32 :=
  Float32.ofBits (UInt32.ofNat (double.convert single x.toBits.toNat))

/-- The double with the value of a single-precision one. -/
def widen (x : Float32) : Float :=
  Float.ofBits (UInt64.ofNat (single.convert double x.toBits.toNat))

/-- The double that a function of decoded patterns gives. -/
def onDouble (f : Datum → Datum) (x : Float) : Float :=
  Float.ofBits (UInt64.ofNat (double.ofDatum (f (double.decode x.toBits.toNat))))

/-- The single-precision value that a function of decoded patterns gives. -/
def onSingle (f : Datum → Datum) (x : Float32) : Float32 :=
  Float32.ofBits (UInt32.ofNat (single.ofDatum (f (single.decode x.toBits.toNat))))

/-- The double nearest to a natural number. -/
def doubleOfNat (n : Nat) : Float :=
  Float.ofBits (UInt64.ofNat (double.nearest false n 1 0))

/-- The single-precision value nearest to a natural number. -/
def singleOfNat (n : Nat) : Float32 :=
  Float32.ofBits (UInt32.ofNat (single.nearest false n 1 0))

/-- The whole part of a double, clamped to sixty-four bits. -/
def doubleToInt (x : Float) : Int := (double.decode x.toBits.toNat).toInt

/-- The whole part of a single-precision value, clamped to sixty-four bits. -/
def singleToInt (x : Float32) : Int := (single.decode x.toBits.toNat).toInt

end CommonLut.Binary.Machine
