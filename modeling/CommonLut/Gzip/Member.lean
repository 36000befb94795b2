import CommonLut.Chunks
import CommonLut.Gzip.Checksum
import CommonLut.Gzip.Inflate

/-!
# Compressed files

A compressed file is a header, the compressed data, and a trailer with the checksum and the length
of what was compressed. Only the first member of a file counts; what follows it is ignored. The
same content can be compressed in many ways. The compressor here writes stored blocks and stands for
any other one whose files are decompressed to what they were.

Main definitions: `Gzip.isCompressed`, `Gzip.decompress?`, `Gzip.compress`.
-/

namespace CommonLut.Gzip

/-! ## §1 Reading -/

/-- Whether bytes begin as a compressed file does. -/
def isCompressed (bytes : ByteArray) : Bool :=
  bytes.data[0]? == some 0x1f && bytes.data[1]? == some 0x8b

/-- The longest text in a header. -/
def headerTextLimit : Nat := 65535

/-- Drops a text and the zero byte that ends it. -/
def dropText? (bytes : List UInt8) : Option (List UInt8) :=
  match bytes.dropWhile (· != 0) with
  | [] => none
  | ending :: rest =>
    if headerTextLimit < bytes.length - (ending :: rest).length then none else some rest

/-- Drops a field with its length in two bytes before it. -/
def dropField? : List UInt8 → Option (List UInt8)
  | low :: high :: rest =>
    let length := low.toNat + 256 * high.toNat
    if rest.length < length then none else some (rest.drop length)
  | _ => none

/-- Checks the two bytes of the header's checksum against the header before them. -/
def dropHeaderChecksum? (bytes rest : List UInt8) : Option (List UInt8) :=
  match rest with
  | low :: high :: data =>
    let header := bytes.take (bytes.length - rest.length)
    if (checksum header).toNat % 0x10000 = low.toNat + 256 * high.toNat then some data else none
  | _ => none

/-- Drops the header of a file. -/
def dropHeader? (bytes : List UInt8) : Option (List UInt8) :=
  match bytes with
  | 0x1f :: 0x8b :: 8 :: flags :: _ :: _ :: _ :: _ :: _ :: _ :: rest => do
    let flag (i : Nat) : Bool := flags.toNat.testBit i
    if 32 ≤ flags then none
    else
      let rest ← if flag 2 then dropField? rest else some rest
      let rest ← if flag 3 then dropText? rest else some rest
      let rest ← if flag 4 then dropText? rest else some rest
      if flag 1 then dropHeaderChecksum? bytes rest else some rest
  | _ => none

/-- The content of a compressed file, if header, data and trailer are right. -/
def decompress? (bytes : ByteArray) : Option ByteArray := do
  let data ← dropHeader? bytes.data.toList
  let (bits, out) ← inflate (data.flatMap byteBits)
  let (sum, bits) ← takeBits 32 bits
  let (length, _) ← takeBits 32 bits
  if sum = (checksum out.data.toList).toNat ∧ length = out.size % 0x100000000 then some out
  else none

/-! ## §2 Writing -/

/-- A number in little-endian bytes. -/
def littleEndian (count n : Nat) : List UInt8 :=
  (List.range count).map fun i => UInt8.ofNat (n >>> (8 * i))

/-- A stored block, of at most `storedLimit` bytes. The length is followed by its complement. -/
def storedBlock (last : Bool) (content : List UInt8) : List UInt8 :=
  (if last then 1 else 0) :: littleEndian 2 content.length ++
    littleEndian 2 (storedLimit - content.length) ++ content

/-- A compressed file with the given content. It stands for any compressor whose files `isCompressed`
recognizes and `decompress?` undoes. Another one gives other bytes, and nothing beyond these two
properties of it matters to what is read from a compressed file. -/
def compress (content : ByteArray) : ByteArray :=
  let bytes := content.data.toList
  let full := (chunks storedLimit bytes).flatMap (storedBlock false)
  let all := [0x1f, 0x8b, 8, 0, 0, 0, 0, 0, 0, 255] ++ full ++ storedBlock true [] ++
    littleEndian 4 (checksum bytes).toNat ++ littleEndian 4 bytes.length
  ⟨all.toArray⟩

end CommonLut.Gzip
