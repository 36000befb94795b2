import CommonLut.Binary.Format

/-!
# Half floats

The sixteen-bit pattern nearest to a single-precision value, and the single-precision value of a
pattern, which is exact.

Main definitions: `Half.toFloat32`, `Half.ofFloat32`.
-/

namespace CommonLut.Binary.Half

/-- The value of a pattern. -/
def toFloat32 (bits : UInt16) : Float32 :=
  Float32.ofBits (UInt32.ofNat (half.convert single bits.toNat))

/-- The pattern nearest to a value; whatever is no number gets one and the same pattern. -/
def ofFloat32 (x : Float32) : UInt16 :=
  UInt16.ofNat (single.convert half x.toBits.toNat)

end CommonLut.Binary.Half
