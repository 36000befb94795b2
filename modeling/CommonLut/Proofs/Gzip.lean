import CommonLut.Gzip.Member
import CommonLut.Proofs.Chunks
import Mathlib.Algebra.Group.Nat.Defs

/-!
# Compressed files read back

A number that is written bit by bit, lowest bit first, is taken from the bits again. A stored block
appends its content to the output and leaves the bits after it, and the blocks of a content that was
cut into chunks append the whole content. So a file that is compressed is recognized and
decompressed to what it was.

Main statements: `Gzip.takeBits_bitsOf`, `Gzip.blocks_stored`, `Gzip.decompress?_compress`.
-/

namespace CommonLut.Gzip

variable {rest : Bits}

/-! ## §1 Numbers -/

/-- The low bits of a number, lowest first. -/
def bitsOf (count n : Nat) : Bits :=
  (List.range count).map n.testBit

@[simp]
theorem length_bitsOf (count n : Nat) : (bitsOf count n).length = count := by
  rw [bitsOf, List.length_map, List.length_range]

theorem bitsOf_succ (count n : Nat) :
    bitsOf (count + 1) n = n.testBit 0 :: bitsOf count (n / 2) := by
  rw [bitsOf, List.range_succ_eq_map, List.map_cons, List.map_map]
  refine congrArg (n.testBit 0 :: ·) (List.map_congr_left fun i _ => ?_)
  exact Nat.testBit_succ n i

/-- Taking a number gives the part of it that the bits hold. -/
theorem takeBits_bitsOf (count n : Nat) :
    takeBits count (bitsOf count n ++ rest) = some (n % 2 ^ count, rest) := by
  induction count generalizing n with
  | zero =>
    rw [Nat.pow_zero, Nat.mod_one]
    rfl
  | succ count ih =>
    rw [bitsOf_succ, List.cons_append, takeBits, ih, Option.map_some]
    have hvalue : (n.testBit 0).toNat + 2 * (n / 2 % 2 ^ count) = n % 2 ^ (count + 1) := by
      rw [Nat.toNat_testBit, Nat.pow_zero, Nat.div_one, Nat.pow_succ', Nat.mod_mul]
    rw [hvalue]

theorem flatMap_littleEndian (count n : Nat) :
    (littleEndian count n).flatMap byteBits = bitsOf (8 * count) n := by
  induction count with
  | zero => rfl
  | succ count ih =>
    have hlast : littleEndian (count + 1) n =
        littleEndian count n ++ [UInt8.ofNat (n >>> (8 * count))] := by
      rw [littleEndian, List.range_succ, List.map_append]
      rfl
    rw [hlast, List.flatMap_append, ih, List.flatMap_singleton, bitsOf, bitsOf, byteBits,
      Nat.mul_succ, List.range_add, List.map_append, List.map_map]
    refine congrArg (_ ++ ·) (List.map_congr_left fun i hi => ?_)
    have hi : i < 8 := List.mem_range.mp hi
    rw [UInt8.toNat_ofNat', Nat.testBit_mod_two_pow, Nat.testBit_shiftRight]
    simp [hi]

/-! ## §2 Stored blocks -/

/-- The next bits of a byte are a byte of the content. -/
theorem takeBits_byteBits (byte : UInt8) :
    takeBits 8 (byteBits byte ++ rest) = some (byte.toNat, rest) := by
  refine (takeBits_bitsOf 8 byte.toNat).trans ?_
  rw [Nat.mod_eq_of_lt byte.toNat_lt]

theorem takeBits_littleEndian (count n : Nat) :
    takeBits (8 * count) ((littleEndian count n).flatMap byteBits ++ rest) =
      some (n % 2 ^ (8 * count), rest) := by
  rw [flatMap_littleEndian, takeBits_bitsOf]

theorem length_flatMap_byteBits (bytes : List UInt8) :
    (bytes.flatMap byteBits).length = 8 * bytes.length := by
  induction bytes with
  | nil => rfl
  | cons byte bytes ih =>
    rw [List.flatMap_cons, List.length_append, ih, List.length_cons, Nat.mul_succ, Nat.add_comm]
    exact congrArg (_ + ·) (length_bitsOf 8 byte.toNat)

theorem storedBytes_flatMap (content : List UInt8) (out : ByteArray) :
    storedBytes content.length (content.flatMap byteBits ++ rest) out =
      some (rest, ⟨out.data ++ content.toArray⟩) := by
  induction content generalizing out with
  | nil => simp [storedBytes]
  | cons byte content ih =>
    rw [List.length_cons, List.flatMap_cons, List.append_assoc, storedBytes, takeBits_byteBits]
    refine (ih (out.push (UInt8.ofNat byte.toNat))).trans ?_
    have hpush : (out.push byte).data = out.data.push byte := rfl
    rw [UInt8.ofNat_toNat, hpush]
    simp

/-- Bits that are left over of a byte are dropped. -/
theorem drop_padding {padding bits : Bits} (hpadding : padding.length < 8)
    (hbits : bits.length % 8 = 0) :
    (padding ++ bits).drop ((padding ++ bits).length % 8) = bits := by
  have hlength : (padding ++ bits).length % 8 = padding.length := by
    rw [List.length_append]
    omega
  rw [hlength, List.drop_left]

theorem stored_flatMap {padding : Bits} (hpadding : padding.length < 8) {content : List UInt8}
    (hcontent : content.length ≤ storedLimit) (hrest : rest.length % 8 = 0) (out : ByteArray) :
    stored (padding ++ ((littleEndian 2 content.length ++
        littleEndian 2 (storedLimit - content.length) ++ content).flatMap byteBits ++ rest)) out =
      some (rest, ⟨out.data ++ content.toArray⟩) := by
  have hlimit : storedLimit < 2 ^ (8 * 2) := by decide
  -- The length and its complement are below the bound, so they are read as they were written.
  rw [stored, drop_padding hpadding (by rw [List.length_append, length_flatMap_byteBits]; omega)]
  simp only [List.flatMap_append, List.append_assoc]
  rw [takeBits_littleEndian 2, Nat.mod_eq_of_lt (by omega), Option.bind_eq_bind, Option.bind_some]
  dsimp only
  rw [takeBits_littleEndian 2, Nat.mod_eq_of_lt (by omega), Option.bind_some]
  dsimp only
  rw [if_neg (by omega), storedBytes_flatMap]

/-- A stored block appends its content; what follows it begins with a whole byte. -/
theorem block_storedBlock (last : Bool) {content : List UInt8}
    (hcontent : content.length ≤ storedLimit) (hrest : rest.length % 8 = 0) (fuel : Nat)
    (out : ByteArray) :
    block fuel ((storedBlock last content).flatMap byteBits ++ rest) out =
      some (last, rest, ⟨out.data ++ content.toArray⟩) := by
  -- The first byte holds the flag and the kind; five bits of it are left over.
  have hfirst : byteBits (if last then 1 else 0) =
      bitsOf 1 last.toNat ++ (bitsOf 2 0 ++ List.replicate 5 false) := by
    cases last <;> rfl
  rw [storedBlock, List.cons_append, List.cons_append, List.flatMap_cons, hfirst, List.append_assoc,
    List.append_assoc, List.append_assoc, block, takeBits_bitsOf, Option.bind_eq_bind,
    Option.bind_some]
  dsimp only
  rw [takeBits_bitsOf, Option.bind_eq_bind, Option.bind_some, Nat.zero_mod]
  dsimp only
  rw [stored_flatMap (by decide) hcontent hrest]
  cases last <;> rfl

/-! ## §3 Content in blocks -/

/-- The blocks of some contents, the last block being empty, append them all. -/
theorem blocks_stored {contents : List (List UInt8)}
    (hcontents : ∀ content ∈ contents, content.length ≤ storedLimit) (hrest : rest.length % 8 = 0)
    {fuel : Nat} (hfuel : contents.length < fuel) (out : ByteArray) :
    blocks fuel ((contents.flatMap (storedBlock false) ++ storedBlock true []).flatMap byteBits ++
        rest) out = some (rest, ⟨out.data ++ contents.flatten.toArray⟩) := by
  induction contents generalizing fuel out with
  | nil =>
    obtain ⟨fuel, rfl⟩ := Nat.exists_eq_succ_of_ne_zero (Nat.ne_zero_of_lt hfuel)
    have hempty : ([] : List UInt8).length ≤ storedLimit := Nat.zero_le storedLimit
    rw [List.flatMap_nil, List.nil_append, blocks, block_storedBlock true hempty hrest]
    rfl
  | cons content contents ih =>
    obtain ⟨fuel, rfl⟩ := Nat.exists_eq_succ_of_ne_zero (Nat.ne_zero_of_lt hfuel)
    rw [List.flatMap_cons, List.append_assoc, List.flatMap_append, List.append_assoc, blocks,
      block_storedBlock false (hcontents content List.mem_cons_self)
        (by rw [List.length_append, length_flatMap_byteBits]; omega)]
    refine (ih (fun c hc => hcontents c (List.mem_cons_of_mem content hc))
      (Nat.lt_of_succ_lt_succ hfuel) _).trans ?_
    simp

theorem inflate_stored {contents : List (List UInt8)}
    (hcontents : ∀ content ∈ contents, content.length ≤ storedLimit)
    (hrest : rest.length % 8 = 0) :
    inflate ((contents.flatMap (storedBlock false) ++ storedBlock true []).flatMap byteBits ++
      rest) = some (rest, ⟨contents.flatten.toArray⟩) := by
  -- Every block has a first byte, so the blocks are not more than the bits.
  have hblocks : contents.length ≤ (contents.flatMap (storedBlock false)).length := by
    induction contents with
    | nil => exact Nat.le_refl 0
    | cons content contents ih =>
      have hle := ih fun c hc => hcontents c (List.mem_cons_of_mem content hc)
      rw [List.flatMap_cons, List.length_append, List.length_cons, storedBlock]
      simp only [List.cons_append, List.length_cons]
      omega
  rw [inflate, blocks_stored hcontents hrest]
  · rw [Option.bind_eq_bind, Option.bind_some]
    dsimp only
    rw [hrest, List.drop_zero, ByteArray.data_empty, Array.empty_append]
    rfl
  · rw [List.length_append, length_flatMap_byteBits, List.length_append]
    omega

/-! ## §4 Files -/

theorem isCompressed_compress (content : ByteArray) : isCompressed (compress content) = true := by
  rw [isCompressed, compress]
  rfl

/-- What is compressed is decompressed to what it was. -/
theorem decompress?_compress (content : ByteArray) :
    decompress? (compress content) = some content := by
  have hstored : 0 < storedLimit := by decide
  have hheader (body : List UInt8) :
      dropHeader? ([0x1f, 0x8b, 8, 0, 0, 0, 0, 0, 0, 255] ++ body) = some body := rfl
  rw [compress, decompress?]
  dsimp only
  rw [List.append_assoc, List.append_assoc, List.append_assoc, hheader]
  simp only [Option.bind_eq_bind, Option.bind_some]
  rw [← List.append_assoc, List.flatMap_append, inflate_stored (length_le_of_mem_chunks hstored _),
    flatten_chunks hstored, List.flatMap_append]
  · dsimp only [Option.bind_some]
    rw [takeBits_littleEndian 4, Option.bind_some]
    dsimp only
    rw [← List.append_nil ((littleEndian 4 content.data.toList.length).flatMap byteBits),
      takeBits_littleEndian 4, Option.bind_some]
    dsimp only
    rw [if_pos ⟨Nat.mod_eq_of_lt (checksum content.data.toList).toNat_lt, rfl⟩]
  · rw [length_flatMap_byteBits, Nat.mul_mod_right]

end CommonLut.Gzip
