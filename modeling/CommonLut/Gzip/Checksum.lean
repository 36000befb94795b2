/-!
# The checksum of compressed files

The cyclic redundancy check with the reversed polynomial `0xEDB88320`, as compressed files carry
it.

Main definitions: `Gzip.checksum`.
-/

namespace CommonLut.Gzip

/-- One bit of the division by the polynomial. -/
def divideBit (crc : UInt32) : UInt32 :=
  if crc &&& 1 == 1 then (crc >>> 1) ^^^ 0xEDB88320 else crc >>> 1

/-- The remainder after one more byte. -/
def divideByte (crc : UInt32) (byte : UInt8) : UInt32 :=
  Nat.repeat divideBit 8 (crc ^^^ byte.toUInt32)

/-- The checksum of a sequence of bytes. -/
def checksum (bytes : List UInt8) : UInt32 :=
  bytes.foldl divideByte 0xFFFFFFFF ^^^ 0xFFFFFFFF

end CommonLut.Gzip
