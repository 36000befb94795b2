import Mathlib
import CommonLut.Binary.Half
import CommonLut.Proofs.Binary.Comparison

/-!
# Machine values below a power of two

A position in a table is computed with single-precision values and then turned into an integer. That
the integer is small follows from bounds on the values in between: the pattern of a value that is
not negative and below `2 ^ k` is below that of `2 ^ k`, since the patterns of positive values are
ordered like the values. Comparisons and products are those of the machine's own model, so its
unpacked values are related to the patterns first.

Main definition: `Single.Below`.
Main statements: `Single.below_of_lt`, `Single.below_mul`, `Single.below_ofNat`,
`Single.below_floor`, `Single.toInt_of_below`, and `Half.toNat_ofFloat32_le` for half patterns.
-/

namespace CommonLut.Binary

namespace Machine

open Float.Model (totalExponent)
open Float.Model.Format (binary32)
open Float.Model.UnpackedFloat

/-! ## §1 Unpacked values -/

section

variable {b : BitVec binary32.numBits}

/-- The pattern that a finite positive value is unpacked from. -/
theorem fields_of_unpack {m : Nat} {e : Int} {h : 0 < m}
    (hb : unpack .binary32 b = .finite .positive m e h) :
    (b.toNat : Int) = m + (e + 149) * 2 ^ 23 ∧ (2 ^ 23 ≤ m ∨ e = -149) ∧ m < 2 ^ 24 ∧
      -149 ≤ e := by
  have hunpacked : Unpacked single b.toNat (.finite .positive m e h) :=
    hb ▸ unpacked (f := single) b
  obtain ⟨s, hsign, hc, hbits⟩ := hunpacked.canonical_of_finite
  obtain rfl : s = false := by
    cases s
    · rfl
    · cases hsign
  obtain ⟨hleast, hbelow, hleading, -⟩ := hc
  simp only [Format.withSign, Format.finiteBits, Format.leastExponent, Format.fieldUnit,
    Bool.false_eq_true, if_false] at hbits hleast hbelow hleading
  omega

/-- A pattern below that of infinity is unpacked to a finite value that is not negative. -/
theorem unpack_of_lt (hb : b.toNat < 255 * 2 ^ 23) :
    unpack .binary32 b = .zero .positive ∨
      ∃ m e h, unpack .binary32 b = .finite .positive m e h := by
  have hunpacked : Unpacked single b.toNat (unpack .binary32 b) := unpacked (f := single) b
  generalize b.toNat = n at hb hunpacked
  generalize unpack .binary32 b = u at hunpacked ⊢
  -- A sign would be in the leading bit.
  have hpositive {s : Bool} {k : Nat} (h : single.withSign s k < 255 * 2 ^ 23) : s = false := by
    cases s
    · rfl
    · simp only [Format.withSign, Format.signBit, if_true] at h
      omega
  cases hunpacked with
  | zero s =>
    obtain rfl := hpositive hb
    exact .inl rfl
  | finite s hc hm =>
    obtain rfl := hpositive hb
    exact .inr ⟨_, _, hm, rfl⟩
  | infinite s =>
    obtain rfl := hpositive hb
    simp [Format.withSign, Format.infinityBits] at hb
  | nan s hpos hr =>
    obtain rfl := hpositive hb
    simp only [Format.withSign, Format.infinityBits, Bool.false_eq_true, if_false] at hb
    omega

end

/-! ## §2 Rounding -/

theorem mantissa_shiftRight (em : ExtendedMantissa) (n : Nat) :
    (em >>> n).mantissa = em.mantissa / 2 ^ n := by
  show (n.repeat ExtendedMantissa.shiftRightOne em).mantissa = _
  induction n with
  | zero => simp [Nat.repeat]
  | succ n ih =>
    rw [Nat.repeat, ExtendedMantissa.shiftRightOne, ih, Nat.div_div_eq_div_mul, pow_succ]

theorem roundedMantissa_le (em : ExtendedMantissa) : em.roundedMantissa ≤ em.mantissa + 1 := by
  unfold ExtendedMantissa.roundedMantissa
  generalize em.accuracy = accuracy
  fun_cases Accuracy.roundToNearestEven em.mantissa accuracy <;> omega

/-- A significand is shifted right without a larger exponent of its leading bit. -/
theorem log2_div_add_le {n k : Nat} (h : 0 < n / 2 ^ k) : (n / 2 ^ k).log2 + k ≤ n.log2 := by
  have hle : 2 ^ (n / 2 ^ k).log2 ≤ n / 2 ^ k := Nat.log2_self_le h.ne'
  have hn : n ≠ 0 := by
    rintro rfl
    simp at h
  rw [Nat.le_log2 hn, pow_add]
  exact (Nat.mul_le_mul_right _ hle).trans (Nat.div_mul_le_self n (2 ^ k))

/-- A significand that is rounded to the target exponent gets one bit too many at most. -/
theorem totalExponent_rounded_le {n k : Nat} {q : Int}
    (hk : k = (binary32.targetExponent (totalExponent n q) - q).toNat) :
    totalExponent (ExtendedMantissa.ofMantissaAndAccuracy n .exact >>> k).roundedMantissa
      (q + k) ≤ max (totalExponent n q + 1) (-124) := by
  have htarget : binary32.targetExponent (totalExponent n q) =
      max ((n.log2 : Int) + 1 + q - 24) (-149) := rfl
  rw [htarget] at hk
  unfold totalExponent
  cases k with
  | zero =>
    -- Without a shift nothing is rounded.
    have hexact : (ExtendedMantissa.ofMantissaAndAccuracy n .exact >>> 0).roundedMantissa = n := rfl
    rw [hexact]
    omega
  | succ k =>
    have hmantissa : (ExtendedMantissa.ofMantissaAndAccuracy n .exact >>> (k + 1)).mantissa =
        n / 2 ^ (k + 1) := mantissa_shiftRight _ _
    have hrounded :=
      roundedMantissa_le (ExtendedMantissa.ofMantissaAndAccuracy n .exact >>> (k + 1))
    have hlt : n / 2 ^ (k + 1) < 2 ^ 24 := by
      rw [Nat.div_lt_iff_lt_mul (by positivity), ← pow_add]
      exact Nat.lt_log2_self.trans_le (Nat.pow_le_pow_right (by decide) (by omega))
    rw [hmantissa] at hrounded
    generalize (ExtendedMantissa.ofMantissaAndAccuracy n .exact >>> (k + 1)).roundedMantissa = r
      at hrounded ⊢
    have hlog : r.log2 < 25 := by
      rcases Nat.eq_zero_or_pos r with rfl | hr
      · decide
      · exact (Nat.log2_lt hr.ne').mpr (by omega)
    omega

/-- Rounding raises the exponent of the leading bit by one at most, above the least exponents. -/
theorem round_eq (s : Sign) (n : Nat) (q : Int) :
    roundWithAccuracy .binary32 s n q .exact = .zero s ∨
      ∃ m e h, roundWithAccuracy .binary32 s n q .exact = .finite s m e h ∧
        totalExponent m e ≤ max (totalExponent n q + 1) (-124) := by
  unfold roundWithAccuracy shiftToTargetExponent shiftToExponent
  dsimp only
  generalize hk : (binary32.targetExponent (totalExponent n q) - q).toNat = k
  have hrounded := totalExponent_rounded_le hk.symm
  generalize (ExtendedMantissa.ofMantissaAndAccuracy n .exact >>> k).roundedMantissa = r
    at hrounded ⊢
  split
  · exact .inl rfl
  · next hpos =>
    refine .inr ⟨_, _, Nat.pos_of_ne_zero hpos, rfl, ?_⟩
    have hmantissa : (ExtendedMantissa.ofMantissaAndAccuracy r .exact).mantissa = r := rfl
    rw [mantissa_shiftRight, hmantissa] at hpos ⊢
    have hlog := log2_div_add_le (Nat.pos_of_ne_zero hpos)
    unfold totalExponent at hrounded hlog ⊢
    omega

/-- The fields of a positive value side by side. -/
theorem toNat_packComponents {spec : Float.Model.Format} (field : BitVec spec.exponentBits)
    (fraction : BitVec spec.mantissaBitsWithoutImplicit) :
    (packComponents spec .positive field fraction).toNat =
      field.toNat * 2 ^ spec.mantissaBitsWithoutImplicit + fraction.toNat := by
  unfold packComponents
  rw [BitVec.toNat_append, BitVec.toNat_append,
    ← Nat.shiftLeft_add_eq_or_of_lt fraction.isLt, ← Nat.shiftLeft_add_eq_or_of_lt field.isLt,
    Nat.shiftLeft_eq]
  simp [Sign.toBitVec]

/-- A positive value is packed below the power of two above its leading bit. -/
theorem toNat_pack_lt {m : Nat} {e : Int} {h : 0 < m} {k : Nat} (hk : k ≤ 100)
    (hexponent : totalExponent m e ≤ k) :
    (pack .binary32 (.finite .positive m e h)).toNat < (127 + k) * 2 ^ 23 := by
  unfold totalExponent at hexponent
  have hcomponents : ∀ (ex : BitVec 8) (fraction : BitVec 23),
      (packComponents .binary32 .positive ex fraction).toNat =
        ex.toNat * 2 ^ 23 + fraction.toNat := @toNat_packComponents .binary32
  have hbias : (binary32.exponentBias : Int) +
      binary32.mantissaBitsWithoutImplicit = 150 := rfl
  have hwidth : binary32.mantissaBits = 24 := rfl
  unfold pack
  dsimp only
  rw [add_assoc, hbias, hwidth]
  split
  · next hlarge =>
    change 2 ^ 8 ≤ _ at hlarge
    omega
  · split
    · next hleading =>
      rw [hcomponents, BitVec.toNat_ofNat, BitVec.toNat_ofNat]
      have hfraction : m % 2 ^ 23 < 2 ^ 23 := Nat.mod_lt _ (by decide)
      omega
    · rw [hcomponents, BitVec.toNat_zero, BitVec.toNat_ofNat]
      have hfraction : m % 2 ^ 23 < 2 ^ 23 := Nat.mod_lt _ (by decide)
      omega

theorem log2_mul_le {m n : Nat} (hm : 0 < m) (hn : 0 < n) :
    (m * n).log2 ≤ m.log2 + n.log2 + 1 := by
  have hlt : m * n < 2 ^ (m.log2 + 1) * 2 ^ (n.log2 + 1) :=
    Nat.mul_lt_mul'' Nat.lt_log2_self Nat.lt_log2_self
  rw [← pow_add, ← Nat.log2_lt (Nat.mul_pos hm hn).ne'] at hlt
  omega

/-! ## §3 Values below a power of two -/

namespace Single

/-- A value is not negative and below `2 ^ k`. -/
def Below (k : Nat) (x : Float32) : Prop := x.toBits.toNat < (127 + k) * 2 ^ 23

variable {k : Nat} {x y : Float32}

theorem below_zero (k : Nat) : Below k 0.0 := by
  have hbits : (0.0 : Float32).toBits = 0 := by decide
  have hpos : 0 < (127 + k) * 2 ^ 23 := Nat.mul_pos (by omega) (by decide)
  unfold Below
  rw [hbits]
  exact hpos

theorem Below.mono {j : Nat} (h : Below j x) (hjk : j ≤ k) : Below k x :=
  Nat.lt_of_lt_of_le h (Nat.mul_le_mul_right _ (by omega))

/-- Patterns of positive values are ordered like the values. -/
theorem below_of_lt (hk : k ≤ 127) (hpos : 0.0 < x) (hxy : x < y) (hy : Below k y) :
    Below k x := by
  unfold Below at hy ⊢
  rw [lt_iff] at hpos hxy
  have hzero : unpack .binary32 (0.0 : Float32).toBits.toBitVec = .zero .positive := by
    rw [show (0.0 : Float32).toBits = 0 by decide]
    rfl
  rw [hzero] at hpos
  have hfinite := unpack_of_lt (b := y.toBits.toBitVec) (hy.trans_le (by omega))
  -- Between zero and a finite value there are only positive finite values.
  cases hx : unpack .binary32 x.toBits.toBitVec with
  | notANumber => rw [hx] at hpos; cases hpos
  | zero s => rw [hx] at hpos; cases hpos
  | infinity s =>
    rw [hx] at hpos hxy
    cases s with
    | negative => cases hpos
    | positive => rcases hfinite with hy | ⟨m, e, h, hy⟩ <;> rw [hy] at hxy <;> cases hxy
  | finite s m e hm =>
    rw [hx] at hpos hxy
    cases s with
    | negative => cases hpos
    | positive =>
      rcases hfinite with hy' | ⟨m', e', hm', hy'⟩
      · rw [hy'] at hxy
        cases hxy
      · rw [hy'] at hxy
        have hfields := fields_of_unpack hx
        have hfields' := fields_of_unpack hy'
        have hless : ((compare e e').then (compare m m')) = .lt := Option.some.inj hxy
        -- Exponents are compared first, and they are the higher bits of a pattern.
        have horder : e < e' ∨ e = e' ∧ m < m' := by
          rcases Ordering.then_eq_lt.mp hless with h | ⟨h, h'⟩
          · exact .inl (compare_lt_iff_lt.mp h)
          · exact .inr ⟨compare_eq_iff_eq.mp h, compare_lt_iff_lt.mp h'⟩
        change x.toBits.toNat < _
        have hbits : x.toBits.toBitVec.toNat = x.toBits.toNat := rfl
        have hbits' : y.toBits.toBitVec.toNat = y.toBits.toNat := rfl
        omega

theorem atLeast_zero (x : Float32) :
    0.0 < Scalar.atLeast 0.0 x ∨ Scalar.atLeast 0.0 x = 0.0 := by
  unfold Scalar.atLeast
  split
  · next h => exact .inl h
  · exact .inr rfl

/-- Clamped from above, a value that is not negative is not larger than the bound. -/
theorem below_atMost (hk : k ≤ 127) (hy : Below k y) (hx : 0.0 < x ∨ x = 0.0) :
    Below k (Scalar.atMost y x) := by
  unfold Scalar.atMost
  split
  · next hless =>
    rcases hx with hpos | rfl
    · exact below_of_lt hk hpos hless hy
    · exact below_zero k
  · exact hy

/-- A value clamped to the unit interval. -/
theorem below_unitClamp (x : Float32) : Below 1 (Scalar.unitClamp x) := by
  have hbits : (1.0 : Float32).toBits = 0x3f800000 := by decide
  have hone : Below 1 1.0 := by
    unfold Below
    rw [hbits]
    decide
  exact below_atMost (by decide) hone (atLeast_zero x)

/-- The leading bit of a value below a power of two. -/
theorem Below.totalExponent_le {m : Nat} {e : Int} {h : 0 < m} (hx : Below k x)
    (hunpack : unpack .binary32 x.toBits.toBitVec = .finite .positive m e h) :
    totalExponent m e ≤ k := by
  have hfields := fields_of_unpack hunpack
  have hbits : x.toBits.toBitVec.toNat = x.toBits.toNat := rfl
  have hlt : x.toBits.toNat < (127 + k) * 2 ^ 23 := hx
  have hlog : m.log2 < 24 := (Nat.log2_lt h.ne').mpr hfields.2.2.1
  have hsmall : m < 2 ^ 23 → m.log2 < 23 := (Nat.log2_lt h.ne').mpr
  unfold totalExponent
  omega

theorem below_mul {j : Nat} (hjk : j + k + 1 ≤ 100) (hx : Below j x) (hy : Below k y) :
    Below (j + k + 1) (x * y) := by
  have hproduct : (x * y).toBits.toNat =
      (pack .binary32 (Float.Model.UnpackedFloat.mul .binary32
        (unpack .binary32 x.toBits.toBitVec) (unpack .binary32 y.toBits.toBitVec))).toNat := rfl
  have hzero : (pack .binary32 (.zero .positive)).toNat < (127 + (j + k + 1)) * 2 ^ 23 :=
    Nat.mul_pos (by omega) (by decide)
  have hfinite {k : Nat} {x : Float32} (hk : k ≤ 100) (hx : Below k x) :=
    unpack_of_lt (b := x.toBits.toBitVec)
      (Nat.lt_of_lt_of_le hx (Nat.mul_le_mul_right _ (by omega)))
  unfold Below
  rw [hproduct]
  -- A zero is below every bound, so only the last of the four products is rounded.
  rcases hfinite (by omega) hx with hx' | ⟨m, e, hm, hx'⟩ <;>
    rcases hfinite (by omega) hy with hy' | ⟨m', e', hm', hy'⟩ <;> rw [hx', hy']
  · exact hzero
  · exact hzero
  · exact hzero
  · have hleading := hx.totalExponent_le hx'
    have hleading' := hy.totalExponent_le hy'
    have hlog := log2_mul_le hm hm'
    change (pack .binary32
      (roundWithAccuracy .binary32 .positive (m * m') (e + e') .exact)).toNat < _
    rcases round_eq .positive (m * m') (e + e') with
      hround | ⟨m'', e'', hm'', hround, hexponent⟩
    · rw [hround]
      exact hzero
    · rw [hround]
      refine toNat_pack_lt hjk ?_
      unfold totalExponent at hleading hleading' hexponent ⊢
      omega

/-! ## §4 Whole numbers -/

/-- A pattern below that of a power of two stands for a value below it. -/
theorem Below.decode (hk : k ≤ 127) (hx : Below k x) : ∃ m e,
    single.decode x.toBits.toNat = .finite false m e ∧ m < 2 ^ 24 ∧ e ≤ k - 24 ∧
      x.toBits.toNat = single.finiteBits m e ∧ single.Canonical m e := by
  have hlt : x.toBits.toNat < (127 + k) * 2 ^ 23 := hx
  have hfinite : x.toBits.toNat < single.infinityBits := by
    simp only [Format.infinityBits]
    omega
  obtain ⟨m, e, hc, hbits⟩ := Format.exists_canonical hfinite
  refine ⟨m, e, ?_, ?_, ?_, hbits, hc⟩
  · rw [hbits]
    exact Format.decode_withSign_finiteBits false hc
  · exact hc.below
  · have hleast := hc.least
    rw [hbits] at hlt
    rcases hc.leading with hleading | hleading <;>
      simp only [Format.finiteBits, Format.fieldUnit, Format.leastExponent] at * <;> omega

/-- The whole part of a value below a power of two. -/
theorem toInt_of_below (hk : 24 ≤ k) (hk' : k ≤ 63) (hx : Below k x) :
    0 ≤ singleToInt x ∧ singleToInt x < 2 ^ k := by
  obtain ⟨m, e, hdecode, hm, he, -⟩ := hx.decode (by omega)
  -- At most one of the two shifts does anything, and that to the right makes nothing larger.
  have hwhole : (m <<< e.toNat) >>> (-e).toNat < 2 ^ k := by
    have hshift : m <<< e.toNat < 2 ^ k := by
      have hsplit : 2 ^ 24 * 2 ^ (k - 24) = 2 ^ k := by
        rw [← pow_add]
        congr 1
        omega
      rw [Nat.shiftLeft_eq, ← hsplit]
      exact Nat.mul_lt_mul_of_lt_of_le hm (Nat.pow_le_pow_right (by decide) (by omega))
        (by positivity)
    rw [Nat.shiftRight_eq_div_pow]
    exact (Nat.div_le_self _ _).trans_lt hshift
  unfold singleToInt
  rw [hdecode]
  simp only [Datum.toInt, Bool.false_eq_true, if_false]
  generalize (m <<< e.toNat) >>> (-e).toNat = whole at hwhole ⊢
  have hcast : (whole : Int) < 2 ^ k := by exact_mod_cast hwhole
  exact ⟨le_min (Int.natCast_nonneg _) (by decide), min_lt_of_left_lt hcast⟩

/-- A pattern below that of infinity is the pattern of its value. -/
theorem toBits_ofBits_of_lt {n : Nat} (hn : n < single.infinityBits) :
    (Float32.ofBits (UInt32.ofNat n)).toBits.toNat = n := by
  have hsize : n < UInt32.size := hn.trans (by decide)
  have hnat : (UInt32.ofNat n).toNat = n := UInt32.toNat_ofNat_of_lt' hsize
  rw [toBits_ofBits, hnat]
  rw [hnat]
  obtain ⟨m, e, hc, rfl⟩ := Format.exists_canonical hn
  intro s p h
  cases (Format.decode_withSign_finiteBits false hc).symm.trans h

theorem binaryExponent_one {n : Nat} (hn : 0 < n) : Format.binaryExponent n 1 = n.log2 := by
  have hle : 2 ^ n.log2 ≤ n := Nat.log2_self_le hn.ne'
  have hone : Nat.log2 1 = 0 := by decide
  unfold Format.binaryExponent
  dsimp only
  rw [if_pos]
  · simp [hone]
  · simpa [Nat.shiftLeft_eq, hone] using hle

theorem divideToEven_le (n d : Nat) : Format.divideToEven n d ≤ n / d + 1 := by
  unfold Format.divideToEven
  dsimp only
  split
  · omega
  · split <;> omega

/-- A natural number is rounded to a significand of one bit too many at most. -/
theorem nearest_lt {n : Nat} (hk : k ≤ 100) (hn : n < 2 ^ k) :
    single.nearest false n 1 0 < (127 + (k + 1)) * 2 ^ 23 := by
  unfold Format.nearest
  split
  · exact Nat.mul_pos (by omega) (by decide)
  · next hpos =>
    have hlog : n.log2 < k := (Nat.log2_lt hpos).mpr hn
    have hlast : max (Format.binaryExponent n 1 + 0 + 1 - (single.precision : Int))
        single.leastExponent = n.log2 - 23 := by
      rw [binaryExponent_one (Nat.pos_of_ne_zero hpos)]
      simp only [Format.precision, Format.leastExponent]
      omega
    dsimp only
    rw [hlast]
    -- Only one of the two shifts does anything, and it leaves twenty-four bits.
    have hquotient : n <<< (0 - ((n.log2 : Int) - 23)).toNat /
        1 <<< ((n.log2 : Int) - 23 - 0).toNat < 2 ^ 24 := by
      rw [Nat.shiftLeft_eq, Nat.shiftLeft_eq, one_mul, Nat.div_lt_iff_lt_mul (by positivity),
        ← pow_add]
      refine (Nat.mul_lt_mul_of_pos_right Nat.lt_log2_self (by positivity)).trans_le ?_
      rw [← pow_add]
      exact Nat.pow_le_pow_right (by decide) (by omega)
    have hrounded := divideToEven_le (n <<< (0 - ((n.log2 : Int) - 23)).toNat)
      (1 <<< ((n.log2 : Int) - 23 - 0).toNat)
    simp only [Format.leastExponent, Format.fieldUnit, Format.withSign, Bool.false_eq_true,
      if_false]
    omega

/-- A natural number below a power of two is rounded to that power at most. -/
theorem below_ofNat {n : Nat} (hk : k ≤ 100) (hn : n < 2 ^ k) :
    Below (k + 1) (singleOfNat n) := by
  have hnearest := nearest_lt hk hn
  have hbits := toBits_ofBits_of_lt (n := single.nearest false n 1 0)
    (Nat.lt_of_lt_of_le hnearest (by simp only [Format.infinityBits]; omega))
  unfold Below singleOfNat
  rw [hbits]
  exact hnearest

theorem below_floor (hk : 25 ≤ k) (hk' : k ≤ 100) (hx : Below k x) :
    Below k (onSingle Datum.floor x) := by
  obtain ⟨m, e, hdecode, hm, -, hbits, hc⟩ := hx.decode (by omega)
  unfold onSingle
  rw [hdecode]
  by_cases he : 0 ≤ e
  · -- A value without places after the point is its own floor.
    have hsame : single.ofDatum (Datum.floor (.finite false m e)) = x.toBits.toNat := by
      rw [Datum.floor, Datum.wholeBy, if_pos he, ← hdecode]
      refine Format.ofDatum_decode x.toBits.toNat_lt fun s p h => ?_
      cases hdecode.symm.trans h
    rw [hsame, UInt32.ofNat_toNat, Float32.ofBits_toBits]
    exact hx
  · have hwhole : m / 1 <<< (-e).toNat < 2 ^ 24 := (Nat.div_le_self _ _).trans_lt hm
    have hfloor : Datum.floor (.finite false m e) = .finite false (m / 1 <<< (-e).toNat) 0 := by
      rw [Datum.floor, Datum.wholeBy, if_neg he]
      rfl
    rw [hfloor]
    exact (below_ofNat (by omega) hwhole).mono hk

end Single

end Machine

/-! ## §5 Half patterns -/

namespace Half

theorem withSign_le {s : Bool} {n : Nat} (hn : n ≤ half.infinityBits) :
    half.withSign s n ≤ 0xfc00 := by
  simp only [Format.infinityBits] at hn
  cases s <;> simp only [Format.withSign, Format.signBit, Bool.false_eq_true, if_true, if_false] <;>
    omega

/-- A value that is a number is rounded to the pattern of negative infinity or one before it. -/
theorem toNat_ofFloat32_le {x : Float32} (hx : x.isNaN = false) :
    (ofFloat32 x).toNat ≤ 0xfc00 := by
  have hnumber := Machine.Single.decode_ne_nan hx
  have hpattern : single.convert half x.toBits.toNat ≤ 0xfc00 := by
    unfold Format.convert
    cases h : single.decode x.toBits.toNat with
    | nan s p => exact absurd h (hnumber s p)
    | infinite s => exact withSign_le (Nat.le_refl _)
    | finite s m e =>
      rw [Format.ofDatum, Format.nearest]
      split
      · exact withSign_le (by decide)
      · exact withSign_le (Nat.min_le_right _ _)
  unfold ofFloat32
  rw [UInt16.toNat_ofNat_of_lt' (hpattern.trans_lt (by decide))]
  exact hpattern

end Half

end CommonLut.Binary
