import CommonLut.Gzip.PrefixCode

/-!
# Decompression

Compressed data is a sequence of blocks. A stored block holds bytes as they are; the others hold
symbols of a prefix code, which is fixed or stands at the start of the block. A symbol is a byte,
the end of the block, or the length of a copy of earlier output, followed by its distance. Output
is preceded by zeros, so a distance may reach back beyond its start.

Main definitions: `Gzip.inflate`.
-/

namespace CommonLut.Gzip

/-! ## §1 The fixed tables -/

/-- The base value and the number of extra bits of each symbol for a copy length. -/
def lengthTable : List (Nat × Nat) :=
  [(3, 0), (4, 0), (5, 0), (6, 0), (7, 0), (8, 0), (9, 0), (10, 0), (11, 1), (13, 1), (15, 1),
    (17, 1), (19, 2), (23, 2), (27, 2), (31, 2), (35, 3), (43, 3), (51, 3), (59, 3), (67, 4),
    (83, 4), (99, 4), (115, 4), (131, 5), (163, 5), (195, 5), (227, 5), (258, 0)]

/-- The base value and the number of extra bits of each symbol for a distance. -/
def distanceTable : List (Nat × Nat) :=
  (1, 0) :: (2, 0) :: (List.range 14).flatMap fun i =>
    [(1 + 2 <<< i, i), (1 + 3 <<< i, i)]

/-- The order in which the lengths of the length code are given. -/
def lengthOrder : List Nat :=
  [16, 17, 18, 0, 8, 7, 9, 6, 10, 5, 11, 4, 12, 3, 13, 2, 14, 1, 15]

/-- The code word lengths of the fixed code for bytes and copy lengths. -/
def fixedLengths : List Nat :=
  List.replicate 144 8 ++ List.replicate 112 9 ++ List.replicate 24 7 ++ List.replicate 8 8

/-- The code word lengths of the fixed code for distances. -/
def fixedDistances : List Nat := List.replicate 32 5

/-! ## §2 Blocks of symbols -/

/-- The byte `distance` back from the end of the output; before its start there are zeros. -/
def byteBack (distance : Nat) (out : ByteArray) : UInt8 :=
  if h : 0 < distance ∧ distance ≤ out.size then out[out.size - distance] else 0

/-- Appends a copy of earlier output, which may overlap with itself. -/
def copyBack (distance : Nat) : Nat → ByteArray → ByteArray
  | 0, out => out
  | n + 1, out => copyBack distance n (out.push (byteBack distance out))

/-- A value from a table entry and its extra bits. -/
def takeEntry (table : List (Nat × Nat)) (symbol : Nat) (bits : Bits) : Option (Nat × Bits) := do
  let (base, extra) ← table[symbol]?
  let (more, bits) ← takeBits extra bits
  return (base + more, bits)

/-- The symbols up to the end of a block. Each symbol takes a bit at least, so `fuel` need not
exceed the number of bits. -/
def symbols (codes distances : CodeTree) : (fuel : Nat) → Bits → ByteArray →
    Option (Bits × ByteArray)
  | 0, _, _ => none
  | fuel + 1, bits, out => do
    let (symbol, bits) ← codes.decode bits
    if symbol < 256 then symbols codes distances fuel bits (out.push (UInt8.ofNat symbol))
    else if symbol = 256 then return (bits, out)
    else
      let (length, bits) ← takeEntry lengthTable (symbol - 257) bits
      let (code, bits) ← distances.decode bits
      let (distance, bits) ← takeEntry distanceTable code bits
      symbols codes distances fuel bits (copyBack distance length out)

/-- Code word lengths, which are themselves coded; `read` holds those before, last one first, and
`fuel` the number still to come. -/
def codedLengths (codes : CodeTree) (total : Nat) : (fuel : Nat) → List Nat → Bits →
    Option (List Nat × Bits)
  | fuel, read, bits =>
    if read.length = total then some (read.reverse, bits)
    else if total < read.length then none
    else
      match fuel with
      | 0 => none
      | fuel + 1 => do
        let (symbol, bits) ← codes.decode bits
        if symbol < 16 then codedLengths codes total fuel (symbol :: read) bits
        else if symbol = 16 then
          let previous ← read.head?
          let (more, bits) ← takeBits 2 bits
          codedLengths codes total fuel (List.replicate (3 + more) previous ++ read) bits
        else
          let (more, bits) ← if symbol = 17 then takeBits 3 bits else takeBits 7 bits
          let count := (if symbol = 17 then 3 else 11) + more
          codedLengths codes total fuel (List.replicate count 0 ++ read) bits

/-- The lengths of the length code, in the order in which they are given. -/
def orderedLengths : Nat → Bits → Option (List Nat × Bits)
  | 0, bits => some ([], bits)
  | n + 1, bits => do
    let (length, bits) ← takeBits 3 bits
    let (rest, bits) ← orderedLengths n bits
    return (length :: rest, bits)

/-- The two codes at the start of a block that brings its own. -/
def ownCodes (bits : Bits) : Option (CodeTree × CodeTree × Bits) := do
  let (moreCodes, bits) ← takeBits 5 bits
  let (moreDistances, bits) ← takeBits 5 bits
  let (moreLengths, bits) ← takeBits 4 bits
  let codeCount := moreCodes + 257
  let distanceCount := moreDistances + 1
  if 286 < codeCount ∨ 30 < distanceCount then none
  else
    let (given, bits) ← orderedLengths (moreLengths + 4) bits
    let lengthOf (symbol : Nat) : Nat := (given[lengthOrder.idxOf symbol]?).getD 0
    let lengthCode ← CodeTree.ofLengths? ((List.range 19).map lengthOf)
    let total := codeCount + distanceCount
    let (lengths, bits) ← codedLengths lengthCode total total [] bits
    let codes ← CodeTree.ofLengths? (lengths.take codeCount)
    let distances ← CodeTree.ofLengths? (lengths.drop codeCount)
    return (codes, distances, bits)

/-! ## §3 Blocks -/

/-- Appends bytes as they stand in the data. -/
def storedBytes : Nat → Bits → ByteArray → Option (Bits × ByteArray)
  | 0, bits, out => some (bits, out)
  | n + 1, bits, out => do
    let (byte, bits) ← takeBits 8 bits
    storedBytes n bits (out.push (UInt8.ofNat byte))

/-- The largest number of bytes in a stored block. -/
def storedLimit : Nat := 0xFFFF

/-- A block of bytes as they are, which starts at a whole byte. -/
def stored (bits : Bits) (out : ByteArray) : Option (Bits × ByteArray) := do
  let bits := bits.drop (bits.length % 8)
  let (length, bits) ← takeBits 16 bits
  let (complement, bits) ← takeBits 16 bits
  if length + complement ≠ storedLimit then none
  else storedBytes length bits out

/-- One block; the flag says whether it is the last one. -/
def block (fuel : Nat) (bits : Bits) (out : ByteArray) : Option (Bool × Bits × ByteArray) := do
  let (last, bits) ← takeBits 1 bits
  let (kind, bits) ← takeBits 2 bits
  let (bits, out) ←
    match kind with
    | 0 => stored bits out
    | 1 => do
      let codes ← CodeTree.ofLengths? fixedLengths
      let distances ← CodeTree.ofLengths? fixedDistances
      symbols codes distances fuel bits out
    | 2 => do
      let (codes, distances, bits) ← ownCodes bits
      symbols codes distances fuel bits out
    | _ => none
  return (last = 1, bits, out)

/-- The blocks up to the last one. A block takes three bits and another one for each symbol, so
`fuel` need not exceed the number of bits by more than one. -/
def blocks : (fuel : Nat) → Bits → ByteArray → Option (Bits × ByteArray)
  | 0, _, _ => none
  | fuel + 1, bits, out => do
    let (last, bits, out) ← block fuel bits out
    if last then return (bits, out) else blocks fuel bits out

/-- Decompresses data; the rest of the bits is given back from the next whole byte on. -/
def inflate (bits : Bits) : Option (Bits × ByteArray) := do
  let (bits, out) ← blocks (bits.length + 1) bits ByteArray.empty
  return (bits.drop (bits.length % 8), out)

end CommonLut.Gzip
