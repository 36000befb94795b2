import Mathlib
import CommonLut.Binary.Double
import CommonLut.Proofs.Binary.Widening

/-!
# Machine floats by their patterns

Patterns and machine floats determine each other, but for what is no number, of which a machine type
has one value. What is known of the machine's fields is brought to the patterns of the formats, for
both machine types at once.

Main definitions: `Format.layout`.
Main statements: `toBits_ofBits`, `toBits_ofBits_of_nan`, their counterparts for single precision,
and `narrow_widen`.
-/

namespace CommonLut.Binary

/-- The widths of the fields of a pattern. -/
def Format.layout : Format → Float.Model.Format
  | .half => { mantissaBitsWithoutImplicit := 10, exponentBits := 5 }
  | .single => .binary32
  | .double => .binary64

namespace Machine

open Float.Model.UnpackedFloat

/-! ## §1 Fields -/

section
variable {spec : Float.Model.Format}

theorem toNat_unpackMantissa (b : BitVec spec.numBits) :
    (unpackMantissa b).toNat = b.toNat % 2 ^ spec.mantissaBitsWithoutImplicit := by
  rw [unpackMantissa_def, BitVec.extractLsb'_toNat, Nat.shiftRight_zero]

theorem toNat_unpackExponent (b : BitVec spec.numBits) :
    (unpackExponent b).toNat =
      b.toNat / 2 ^ spec.mantissaBitsWithoutImplicit % 2 ^ spec.exponentBits := by
  rw [unpackExponent_def, BitVec.extractLsb'_toNat, Nat.shiftRight_eq_div_pow]

theorem isNaNBits_iff {b : BitVec spec.numBits} :
    isNaNBits b ↔
      b.toNat / 2 ^ spec.mantissaBitsWithoutImplicit % 2 ^ spec.exponentBits =
          2 ^ spec.exponentBits - 1 ∧
        b.toNat % 2 ^ spec.mantissaBitsWithoutImplicit ≠ 0 := by
  rw [isNaNBits, decide_eq_true_iff, ← BitVec.toNat_inj, toNat_unpackExponent,
    BitVec.neg_one_eq_allOnes, BitVec.toNat_allOnes, Ne, ← BitVec.toNat_inj, toNat_unpackMantissa,
    BitVec.toNat_zero]

end

section

variable {f : Binary.Format} {b : BitVec f.layout.numBits}

/-- The two lower fields tell whether a pattern is a number. -/
theorem decode_nan_iff : (∃ s p, f.decode b.toNat = .nan s p) ↔ isNaNBits b := by
  have hb : b.toNat < f.patternCount := b.isLt.trans_eq (by cases f <;> rfl)
  obtain ⟨s, n, hn, hsplit⟩ := Format.exists_withSign hb
  have hnan : (∃ s p, f.decode b.toNat = .nan s p) ↔ f.infinityBits < n := by
    rw [hsplit, Format.decode_withSign s hn]
    constructor
    · rintro ⟨s', p, h⟩
      refine Nat.lt_of_not_le fun hle => ?_
      split at h
      · rw [if_pos (by omega)] at h
        cases h
      · split at h <;> cases h
    · intro h
      rw [if_pos (by omega), if_neg (by omega)]
      exact ⟨_, _, rfl⟩
  have hvalue : b.toNat = n ∨ b.toNat = f.signBit + n := by
    cases s
    · exact .inl hsplit
    · exact .inr hsplit
  rw [hnan, isNaNBits_iff]
  -- the widths are numbers from here on, which is what the arithmetic needs
  cases f <;> simp only [Format.layout, Format.infinityBits, Format.signBit] at hn hvalue ⊢ <;>
    omega

theorem two_le_exponentBits (f : Binary.Format) : 2 ≤ f.layout.exponentBits := by
  cases f <;> decide

/-- Unpacking and packing gives a pattern back, unless it is no number. -/
theorem pack_unpack_of_number (hb : ∀ s p, f.decode b.toNat ≠ .nan s p) :
    pack f.layout (unpack f.layout b) = b := by
  rw [pack_unpack b (two_le_exponentBits f), if_neg]
  intro h
  obtain ⟨s, p, h⟩ := decode_nan_iff.mpr h
  exact hb s p h

theorem pack_unpack_of_nan {s : Bool} {p : Nat} (hb : f.decode b.toNat = .nan s p) :
    pack f.layout (unpack f.layout b) = packedNaN f.layout := by
  rw [pack_unpack b (two_le_exponentBits f), if_pos (decode_nan_iff.mp ⟨s, p, hb⟩)]

end

/-! ## §2 Doubles -/

/-- The pattern of the one machine double that is no number. -/
def quietNaN : UInt64 := 0x7ff8000000000000

/-- A machine double has the pattern that it was made from, unless that is no number. -/
theorem toBits_ofBits {b : UInt64} (hb : ∀ s p, double.decode b.toNat ≠ .nan s p) :
    (Float.ofBits b).toBits = b :=
  congrArg UInt64.ofBitVec (pack_unpack_of_number (f := double) (b := b.toBitVec) hb)

/-- Every pattern that is no number makes the same machine double. -/
theorem toBits_ofBits_of_nan {b : UInt64} {s : Bool} {p : Nat}
    (hb : double.decode b.toNat = .nan s p) : (Float.ofBits b).toBits = quietNaN :=
  congrArg UInt64.ofBitVec (pack_unpack_of_nan (f := double) (b := b.toBitVec) hb)

/-! ## §3 Singles -/

namespace Single

/-- The pattern of the one machine single that is no number. -/
def quietNaN : UInt32 := 0x7fc00000

/-- A machine single has the pattern that it was made from, unless that is no number. -/
theorem toBits_ofBits {b : UInt32} (hb : ∀ s p, single.decode b.toNat ≠ .nan s p) :
    (Float32.ofBits b).toBits = b :=
  congrArg UInt32.ofBitVec (pack_unpack_of_number (f := single) (b := b.toBitVec) hb)

/-- Every pattern that is no number makes the same machine single. -/
theorem toBits_ofBits_of_nan {b : UInt32} {s : Bool} {p : Nat}
    (hb : single.decode b.toNat = .nan s p) : (Float32.ofBits b).toBits = quietNaN :=
  congrArg UInt32.ofBitVec (pack_unpack_of_nan (f := single) (b := b.toBitVec) hb)

/-- A machine single that is no number has the one pattern for it. -/
theorem toBits_of_nan {x : Float32} {s : Bool} {p : Nat}
    (hx : single.decode x.toBits.toNat = .nan s p) : x.toBits = quietNaN := by
  rw [← toBits_ofBits_of_nan hx, Float32.ofBits_toBits]

end Single

/-! ## §4 Widening and narrowing -/

/-- A datum like one that is a number is a number. -/
theorem ne_nan_of_same {x y : Datum} (hxy : x.Same y) (hy : ∀ s p, y ≠ .nan s p) :
    ∀ s p, x ≠ .nan s p := by
  rintro s p rfl
  cases y with
  | finite => exact hxy
  | infinite => exact hxy
  | nan s' p' => exact hy s' p' rfl

/-- The pattern of a widened single stands for the same datum. -/
theorem same_widen (x : Float32) : ∃ wide < double.patternCount,
    widen x = Float.ofBits (UInt64.ofNat wide) ∧
      (double.decode wide).Same (single.decode x.toBits.toNat) := by
  have hbits : x.toBits.toNat < single.patternCount := x.toBits.toNat_lt
  exact ⟨_, Format.ofDatum_lt_patternCount (by decide) hbits (Datum.Same.refl _), rfl,
    Format.decode_ofDatum_same (by decide) hbits (Datum.Same.refl _)⟩

/-- Nothing is lost when a single is widened. -/
theorem narrow_widen (x : Float32) : narrow (widen x) = x := by
  have hbits : x.toBits.toNat < single.patternCount := x.toBits.toNat_lt
  obtain ⟨wide, hwide, hwiden, hsame⟩ := same_widen x
  have hnat : (UInt64.ofNat wide).toNat = wide := UInt64.toNat_ofNat_of_lt' hwide
  rw [hwiden, narrow]
  -- All NaNs have one pattern, so only of a number are the bits converted back.
  by_cases hx : ∃ s p, single.decode x.toBits.toNat = .nan s p
  · obtain ⟨s, p, hx⟩ := hx
    obtain ⟨s', p', hnan⟩ : ∃ s' p', double.decode wide = .nan s' p' := by
      rw [hx] at hsame
      cases h : double.decode wide with
      | finite => rw [h] at hsame; exact hsame.elim
      | infinite => rw [h] at hsame; exact hsame.elim
      | nan s' p' => exact ⟨s', p', rfl⟩
    rw [toBits_ofBits_of_nan (by rwa [hnat])]
    exact (congrArg Float32.ofBits (Single.toBits_of_nan hx).symm).trans x.ofBits_toBits
  · have hnumber : ∀ s p, single.decode x.toBits.toNat ≠ .nan s p := fun s p h => hx ⟨s, p, h⟩
    have hback : double.convert single wide = x.toBits.toNat := by
      rw [Format.convert, Format.ofDatum_of_same (Nat.le_refl _) hbits hsame,
        Format.ofDatum_decode hbits hnumber]
    have hwidened := toBits_ofBits (b := UInt64.ofNat wide)
      (by rw [hnat]; exact ne_nan_of_same hsame hnumber)
    rw [hwidened, hnat, hback, UInt32.ofNat_toNat, Float32.ofBits_toBits]

end Machine

end CommonLut.Binary
