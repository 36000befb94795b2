import CommonLut.Proofs.Binary.Value

/-!
# Gradual underflow

The difference of two machine numbers is a whole number of units of the smaller exponent, and no
exponent is below the least one of the format. Rounding then never takes away all of a significand,
so numbers that differ have a difference that is not zero: the machine's difference of two doubles
is positive when the first one is larger.

Main statements: `exists_roundWithAccuracy_eq`, `zero_lt_sub`.
-/

namespace CommonLut.Binary.Machine

open Float.Model (UnpackedFloat totalExponent)
open Float.Model.UnpackedFloat

/-! ## §1 Significands that are kept -/

section
variable {f : Binary.Format} {n m : Nat} {q e : Int}

theorem targetExponent_layout (f : Binary.Format) (t : Int) :
    f.layout.targetExponent t = max (t - f.precision) f.leastExponent := by
  cases f <;> rfl

theorem le_roundedMantissa (em : ExtendedMantissa) : em.mantissa ≤ em.roundedMantissa := by
  unfold ExtendedMantissa.roundedMantissa
  generalize em.accuracy = accuracy
  fun_cases Accuracy.roundToNearestEven em.mantissa accuracy <;> omega

/-- A positive significand is shifted to one of the format's width that is positive still. -/
theorem shiftToTargetExponent_bounds (hn : 0 < n) (hq : f.leastExponent ≤ q)
    (accuracy : Accuracy) :
    0 < (shiftToTargetExponent f.layout n q accuracy).1.mantissa ∧
      (shiftToTargetExponent f.layout n q accuracy).1.mantissa < 2 ^ f.precision ∧
      f.leastExponent ≤ (shiftToTargetExponent f.layout n q accuracy).2 := by
  have hprecision : 0 < f.precision := by cases f <;> decide
  have hstart : (ExtendedMantissa.ofMantissaAndAccuracy n accuracy).mantissa = n := by
    fun_cases ExtendedMantissa.ofMantissaAndAccuracy n accuracy <;> rfl
  unfold shiftToTargetExponent shiftToExponent
  dsimp only
  rw [targetExponent_layout, mantissa_shiftRight, hstart]
  unfold totalExponent
  generalize hk : (max ((n.log2 : Int) + 1 + q - f.precision) f.leastExponent - q).toNat = k
  refine ⟨?_, ?_, by omega⟩
  · -- The leading bit is not shifted out.
    refine Nat.div_pos ?_ (by positivity)
    exact (Nat.pow_le_pow_right (by decide) (by omega)).trans (Nat.log2_self_le hn.ne')
  · rw [Nat.div_lt_iff_lt_mul (by positivity), ← pow_add]
    exact Nat.lt_log2_self.trans_le (Nat.pow_le_pow_right (by decide) (by omega))

/-- A positive number of units is not rounded to zero. -/
theorem exists_roundWithAccuracy_eq (s : Sign) (hn : 0 < n) (hq : f.leastExponent ≤ q)
    (accuracy : Accuracy) : ∃ m e, ∃ hm : 0 < m,
      roundWithAccuracy f.layout s n q accuracy = .finite s m e hm ∧
        m < 2 ^ f.precision ∧ f.leastExponent ≤ e := by
  obtain ⟨hpos, -, hleast⟩ := shiftToTargetExponent_bounds hn hq accuracy
  unfold roundWithAccuracy
  dsimp only
  generalize shiftToTargetExponent f.layout n q accuracy = first at hpos hleast
  -- The significand may have been rounded up, and is shifted once more.
  obtain ⟨hpos', hbelow, hleast'⟩ := shiftToTargetExponent_bounds
    (hpos.trans_le (le_roundedMantissa first.1)) hleast .exact
  rw [dif_neg hpos'.ne']
  exact ⟨_, _, hpos', rfl, hbelow, hleast'⟩

theorem exists_normalize_eq {M : Int} (hM : 0 < M) (hq : f.leastExponent ≤ q) (zeroSign : Sign) :
    ∃ m e, ∃ hm : 0 < m, UnpackedFloat.normalize f.layout M q zeroSign = .finite .positive m e hm ∧
      m < 2 ^ f.precision ∧ f.leastExponent ≤ e := by
  unfold UnpackedFloat.normalize
  rw [compare_gt_iff_gt.mpr hM]
  dsimp only
  unfold UnpackedFloat.round decreaseExponent
  dsimp only
  rw [targetExponent_layout]
  refine exists_roundWithAccuracy_eq .positive ?_ (by omega) .exact
  rw [Nat.shiftLeft_eq]
  exact Nat.mul_pos (by omega) (by positivity)

/-- A positive number is packed to the pattern of one, which may be infinite. -/
theorem toNat_pack_bounds (hm : 0 < m) (hbelow : m < 2 ^ f.precision)
    (hleast : f.leastExponent ≤ e) :
    0 < (pack f.layout (.finite .positive m e hm)).toNat ∧
      (pack f.layout (.finite .positive m e hm)).toNat ≤ f.infinityBits := by
  have hlog : m.log2 + 1 ≤ f.precision := (Nat.log2_lt hm.ne').mpr hbelow
  have hsubnormal : m.log2 + 1 ≠ f.precision → m < 2 ^ (f.precision - 1) := fun hne =>
    (Nat.log2_lt hm.ne').mp (by omega)
  unfold pack packedInfinity
  dsimp only
  split
  · rw [toNat_packComponents]
    cases f <;> decide
  · split
    · rw [toNat_packComponents, BitVec.toNat_ofNat, BitVec.toNat_ofNat]
      -- the widths are numbers from here on, which is what the arithmetic needs
      cases f <;>
        simp only [Format.layout, Format.precision, Format.leastExponent, Format.infinityBits,
          Float.Model.Format.exponentBias, Float.Model.Format.mantissaBits] at * <;>
        omega
    · rw [toNat_packComponents, BitVec.toNat_zero, BitVec.toNat_ofNat]
      cases f <;>
        simp only [Format.layout, Format.precision, Format.leastExponent, Format.infinityBits,
          Float.Model.Format.exponentBias, Float.Model.Format.mantissaBits] at * <;>
        omega

/-! ## §2 Differences -/

theorem pos_of_value {s : Sign} (h : (0 : ℚ) < (s.apply m : Int) * 2 ^ e) : s = .positive := by
  cases s with
  | positive => rfl
  | negative =>
    have hneg : (((Sign.negative.apply m : Int) : ℚ) * 2 ^ e) = -(m * 2 ^ e) := by
      simp [Sign.apply]
    have hnonneg : (0 : ℚ) ≤ m * 2 ^ e := by positivity
    rw [hneg] at h
    linarith

/-- A positive difference of finite numbers is computed as a positive number. -/
theorem exists_sub_eq {u w : UnpackedFloat} {a b : ℚ} (hu : Stands f u b) (hw : Stands f w a)
    (h : a < b) : ∃ m e, ∃ hm : 0 < m, UnpackedFloat.sub f.layout u w = .finite .positive m e hm ∧
      m < 2 ^ f.precision ∧ f.leastExponent ≤ e := by
  have hwidth : 2 * f.fieldUnit = 2 ^ f.precision := by cases f <;> rfl
  -- With a zero on one side the other operand is returned as it is, or negated.
  cases hw with
  | zero s =>
    cases hu with
    | zero t => exact absurd h (lt_irrefl 0)
    | @finite t m e hm hc =>
      obtain rfl := pos_of_value h
      exact ⟨m, e, hm, rfl, hwidth ▸ hc.below, hc.least⟩
  | @finite s m e hm hc =>
    cases hu with
    | zero t =>
      have hpos : (0 : ℚ) < ((-s).apply m : Int) * 2 ^ e := by
        rw [← neg_pos] at h
        cases s <;> simpa [Sign.apply] using h
      have hsign := pos_of_value hpos
      exact ⟨m, e, hm, by rw [← hsign]; rfl, hwidth ▸ hc.below, hc.least⟩
    | @finite t m' e' hm' hc' =>
      have hdifference : (0 : ℚ) < (t.apply m' : Int) * 2 ^ e' - (s.apply m : Int) * 2 ^ e := by
        linarith
      rw [← difference_value] at hdifference
      have hpos := pos_of_mul_pos_left hdifference (by positivity)
      exact exists_normalize_eq (by exact_mod_cast hpos) (le_min hc'.least hc.least) .positive

end

section
variable {x y z : Float} {m : Nat} {e : Int}

theorem isNaN_zero : (0.0 : Float).isNaN = false := by decide

/-- A pattern without a sign, up to that of infinity, stands for a positive number. -/
theorem pos_of_toBits (hpos : 0 < z.toBits.toNat) (hle : z.toBits.toNat ≤ double.infinityBits) :
    0.0 < z := by
  have hnumber : ∀ s p, double.decode z.toBits.toNat ≠ .nan s p :=
    Format.decode_withSign_ne_nan false hle
  have hzero : (0.0 : Float).toBits.toNat = double.withSign false 0 := by decide
  have hbits : z.toBits.toNat = double.withSign false z.toBits.toNat := rfl
  have hsign : z.toBits.toNat < double.signBit := hle.trans_lt (by decide)
  rw [lt_iff_place isNaN_zero ((unpacked_double z).isNaN_eq_false hnumber), place, place,
    Format.place_lt_iff (UInt64.toNat_lt _) (UInt64.toNat_lt _)
      ((unpacked_double 0.0).number isNaN_zero) hnumber, hzero, hbits,
    Format.rank_withSign false (by decide), Format.rank_withSign false hsign]
  simpa using hpos

theorem pos_of_pack (hm : 0 < m)
    (hz : z.toBits.toBitVec = pack .binary64 (.finite .positive m e hm))
    (hbelow : m < 2 ^ double.precision) (hleast : double.leastExponent ≤ e) : 0.0 < z := by
  have hbits : z.toBits.toNat = (pack double.layout (.finite .positive m e hm)).toNat :=
    congrArg BitVec.toNat hz
  obtain ⟨hpos, hle⟩ := toNat_pack_bounds (f := double) hm hbelow hleast
  exact pos_of_toBits (hbits ▸ hpos) (hbits ▸ hle)

theorem place_of_isFinite (hx : x.isFinite = true) :
    place x = (((double.decode x.toBits.toNat).value : WithTop ℚ) : WithBot (WithTop ℚ)) := by
  obtain ⟨s, m, e, hdecode⟩ := (unpacked_double x).isFinite_iff.mp hx
  rw [place, hdecode]
  rfl

/-- The difference of distinct finite doubles is not zero, even where it is below the normal
numbers. -/
theorem zero_lt_sub (hx : x.isFinite = true) (hy : y.isFinite = true) (h : x < y) :
    0.0 < y - x := by
  rw [lt_iff_place (isNaN_of_isFinite hx) (isNaN_of_isFinite hy), place_of_isFinite hx,
    place_of_isFinite hy, WithBot.coe_lt_coe, WithTop.coe_lt_coe] at h
  obtain ⟨m, e, hm, hsub, hbelow, hleast⟩ :=
    exists_sub_eq ((unpacked_double y).stands hy) ((unpacked_double x).stands hx) h
  refine pos_of_pack hm ?_ hbelow hleast
  exact congrArg (pack .binary64) hsub

end

end CommonLut.Binary.Machine
