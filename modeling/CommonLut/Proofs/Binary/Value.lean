import CommonLut.Proofs.Binary.Magnitude

/-!
# Machine singles by their exact values

A finite machine single has an exact value. Comparison of machine singles is comparison of those
values, infinities included, and a difference or quotient whose exact value is one of the format is
computed without rounding.

Main definitions: `Single.value`, `Machine.Stands`, `Machine.Representable`.
Main statements: `Single.lt_iff_value`, `Single.sub_value`, `Single.div_value`.
-/

namespace CommonLut.Binary

namespace Machine

open Float.Model (UnpackedFloat totalExponent)
open Float.Model.Format (binary32)
open Float.Model.UnpackedFloat

namespace Single

variable {x y : Float32}

/-! ## §1 Finite values -/

/-- The exact value of a machine single, zero for what has none. -/
def value (x : Float32) : ℚ := (single.decode x.toBits.toNat).value

theorem isNaN_of_isFinite (hx : x.isFinite = true) : x.isNaN = false :=
  Unpacked.isNaN_of_isFinite hx

theorem isInf_of_isFinite (hx : x.isFinite = true) : x.isInf = false := by
  obtain ⟨s, m, e, hdecode⟩ := (unpacked_single x).isFinite_iff.mp hx
  refine Bool.eq_false_iff.mpr fun hinf => ?_
  obtain ⟨t, ht⟩ := (unpacked_single x).isInf_iff.mp hinf
  cases hdecode.symm.trans ht

/-- A finite machine single has the pattern of a canonical form. -/
theorem exists_canonical (hx : x.isFinite = true) : ∃ s m e, single.Canonical m e ∧
    x.toBits.toNat = single.withSign s (single.finiteBits m e) :=
  (unpacked_single x).exists_canonical hx

theorem isFinite_of_decode {s : Bool} {m : Nat} {e : Int}
    (hx : single.decode x.toBits.toNat = .finite s m e) : x.isFinite = true :=
  (unpacked_single x).isFinite_iff.mpr ⟨s, m, e, hx⟩

theorem isInf_of_decode {s : Bool} (hx : single.decode x.toBits.toNat = .infinite s) :
    x.isInf = true :=
  (unpacked_single x).isInf_iff.mpr ⟨s, hx⟩

theorem place_of_isFinite (hx : x.isFinite = true) :
    (single.decode x.toBits.toNat).place = ((value x : WithTop ℚ) : WithBot (WithTop ℚ)) := by
  obtain ⟨s, m, e, hc, hbits⟩ := exists_canonical hx
  rw [value, hbits, Format.decode_withSign_finiteBits s hc]
  rfl

theorem lt_iff_value (hx : x.isFinite = true) (hy : y.isFinite = true) :
    x < y ↔ value x < value y := by
  rw [compare_place (isNaN_of_isFinite hx) (isNaN_of_isFinite hy), place_of_isFinite hx,
    place_of_isFinite hy, WithBot.coe_lt_coe, WithTop.coe_lt_coe]

theorem beq_iff_value (hx : x.isFinite = true) (hy : y.isFinite = true) :
    (x == y) = true ↔ value x = value y := by
  have hplace : (x == y) = true ↔ _ := (unpacked_single x).beq_iff (unpacked_single y)
    (isNaN_of_isFinite hx) (isNaN_of_isFinite hy)
  rw [hplace, place_of_isFinite hx, place_of_isFinite hy, WithBot.coe_inj, WithTop.coe_inj]

theorem le_iff_value (hx : x.isFinite = true) (hy : y.isFinite = true) :
    x ≤ y ↔ value x ≤ value y := by
  rw [le_iff_place (isNaN_of_isFinite hx) (isNaN_of_isFinite hy), place_of_isFinite hx,
    place_of_isFinite hy, WithBot.coe_le_coe, WithTop.coe_le_coe]

end Single

/-! ## §2 Rounding what needs none -/

theorem log2_mul_pow {m : Nat} (hm : 0 < m) (k : Nat) : (m * 2 ^ k).log2 = m.log2 + k := by
  induction k with
  | zero => simp
  | succ k ih =>
    rw [pow_succ', mul_left_comm, Nat.log2_two_mul (by positivity), ih, add_assoc]

/-- An unpacked finite number in canonical form stands for its value. -/
inductive Stands (f : Binary.Format) : UnpackedFloat → ℚ → Prop where
  | zero (s : Sign) : Stands f (.zero s) 0
  | finite (s : Sign) {m : Nat} {e : Int} (hm : 0 < m) (hc : f.Canonical m e) :
      Stands f (.finite s m e hm) ((s.apply m : Int) * 2 ^ e)

/-- The magnitude is that of a canonical form. -/
def Representable (v : ℚ) : Prop := ∃ m e, single.Canonical m e ∧ |v| = m * 2 ^ e

/-- A value of few enough bits is representable. -/
theorem representable_of {n q : Int} (hn : |n| < 2 ^ 24) (hq : -149 ≤ q)
    (hle : |(n * 2 ^ q : ℚ)| ≤ 2 ^ 104) : Representable (n * 2 ^ q) := by
  rcases eq_or_ne n 0 with rfl | hzero
  · exact ⟨0, _, single.canonical_zero, by simp⟩
  obtain ⟨m, hm⟩ : ∃ m : Nat, |n| = m := ⟨n.natAbs, Int.abs_eq_natAbs n⟩
  have hpow : (0 : ℚ) < 2 ^ q := by positivity
  have hvalue : |(n * 2 ^ q : ℚ)| = m * 2 ^ q := by
    rw [abs_mul, abs_of_pos hpow, ← Int.cast_abs, hm, Int.cast_natCast]
  have hmpos : 0 < m := by
    have := abs_pos.mpr hzero
    omega
  have htop : q ≤ 104 := by
    rw [hvalue] at hle
    have hone : (1 : ℚ) ≤ m := by exact_mod_cast hmpos
    have hstep : (2 : ℚ) ^ q ≤ 2 ^ (104 : Int) := by
      rw [show ((2 : ℚ) ^ (104 : Int)) = 2 ^ 104 by norm_num]
      nlinarith
    exact (zpow_le_zpow_iff_right₀ (by norm_num)).mp hstep
  -- The significand is shifted up to its leading bit, or as far as the exponents go.
  have hlog : m.log2 < 24 := (Nat.log2_lt hmpos.ne').mpr (by omega)
  obtain ⟨k, hk⟩ : ∃ k : Nat, k = min (23 - m.log2) (q + 149).toNat := ⟨_, rfl⟩
  have hshifted : (m * 2 ^ k).log2 = m.log2 + k := log2_mul_pow hmpos k
  have hbelow : m * 2 ^ k < 2 ^ 24 := (Nat.log2_lt (by positivity)).mp (by omega)
  refine ⟨m * 2 ^ k, q - k, ⟨?_, hbelow, ?_, ?_⟩, ?_⟩
  · simp only [Format.leastExponent]
    omega
  · by_cases hleading : 23 ≤ m.log2 + k
    · exact .inl ((Nat.le_log2 (by positivity)).mp (hshifted ▸ hleading))
    · right
      simp only [Format.leastExponent]
      omega
  · simp only [Format.finiteBits, Format.leastExponent, Format.fieldUnit, Format.infinityBits]
    omega
  · rw [hvalue, Format.shift_value]

theorem sign_apply (s : Bool) (m : Nat) (e : Int) :
    (((sign s).apply m : Int) * 2 ^ e : ℚ) = (Datum.finite s m e).value := by
  cases s
  · simp [sign, Sign.apply, Datum.value, signed]
  · simp [sign, Sign.apply, Datum.value, signed]

theorem Unpacked.stands {f : Binary.Format} {n : Nat} {u : UnpackedFloat} (h : Unpacked f n u)
    (hu : u.isFinite = true) : Stands f u (f.decode n).value := by
  cases h with
  | zero s =>
    rw [Format.decode_withSign_zero]
    have hvalue : (Datum.finite s 0 f.leastExponent).value = 0 := by
      cases s <;> simp [Datum.value, signed]
    rw [hvalue]
    exact .zero _
  | finite s hc hm =>
    rw [Format.decode_withSign_finiteBits s hc, ← sign_apply]
    exact .finite _ hm hc
  | infinite s => cases hu
  | nan s hpos hr => cases hu

theorem stands_unpack {x : Float32} (hx : x.isFinite = true) :
    Stands single (unpack .binary32 x.toBits.toBitVec) (Single.value x) :=
  (unpacked_single x).stands hx

theorem value_of_stands {z : Float32} {u : UnpackedFloat} {v : ℚ}
    (hz : z.toBits.toBitVec = pack .binary32 u) (hu : Stands single u v) :
    z.isFinite = true ∧ Single.value z = v := by
  -- A zero is packed without a significand, so `toNat_pack_finite` does not apply to it.
  cases hu with
  | zero s =>
    obtain ⟨s, rfl⟩ := exists_sign s
    have hdecode : single.decode z.toBits.toNat = .finite s 0 single.leastExponent := by
      rw [← Format.decode_withSign_zero s]
      refine congrArg _ ((congrArg BitVec.toNat hz).trans ?_)
      cases s <;> decide
    refine ⟨Single.isFinite_of_decode hdecode, ?_⟩
    rw [Single.value, hdecode]
    cases s <;> simp [Datum.value, signed]
  | @finite s m e hm hc =>
    obtain ⟨s, rfl⟩ := exists_sign s
    have hdecode : single.decode z.toBits.toNat = .finite s m e := by
      rw [← Format.decode_withSign_finiteBits s hc]
      exact congrArg _ ((congrArg BitVec.toNat hz).trans (toNat_pack_finite s hc hm))
    refine ⟨Single.isFinite_of_decode hdecode, ?_⟩
    rw [Single.value, hdecode, sign_apply]

/-- Shifting out zeros leaves nothing to round. -/
theorem shiftRight_exact (m k : Nat) :
    ExtendedMantissa.ofMantissaAndAccuracy (m * 2 ^ k) .exact >>> k =
      ExtendedMantissa.ofMantissaAndAccuracy m .exact := by
  show k.repeat ExtendedMantissa.shiftRightOne _ = _
  induction k generalizing m with
  | zero => simp [Nat.repeat]
  | succ k ih =>
    rw [Nat.repeat, pow_succ', ← mul_assoc, ih]
    simp [ExtendedMantissa.ofMantissaAndAccuracy, ExtendedMantissa.shiftRightOne]

/-- A canonical form has the exponent that rounding aims at. -/
theorem targetExponent_canonical {m : Nat} {e : Int} (hm : 0 < m) (hc : single.Canonical m e) :
    binary32.targetExponent (totalExponent m e) = e := by
  have htarget : binary32.targetExponent (totalExponent m e) =
      max ((m.log2 : Int) + 1 + e - 24) (-149) := rfl
  have hlog : m.log2 < 24 := (Nat.log2_lt hm.ne').mpr hc.below
  have hleast : -149 ≤ e := hc.least
  rw [htarget]
  rcases hc.leading with hleading | rfl
  · have hlog' : 23 ≤ m.log2 := (Nat.le_log2 hm.ne').mpr hleading
    omega
  · change max ((m.log2 : Int) + 1 + -149 - 24) (-149) = -149
    omega

theorem roundWithAccuracy_exact {s : Sign} {m : Nat} {q e : Int} (hm : 0 < m)
    (hc : single.Canonical m e) (hq : q ≤ e) :
    roundWithAccuracy .binary32 s (m * 2 ^ (e - q).toNat) q .exact = .finite s m e hm := by
  have htotal : totalExponent (m * 2 ^ (e - q).toNat) q = totalExponent m e := by
    unfold totalExponent
    rw [log2_mul_pow hm]
    omega
  have hexp : q + (e - q).toNat = e := by omega
  have hround : (ExtendedMantissa.ofMantissaAndAccuracy m .exact).roundedMantissa = m := rfl
  have hstay : (ExtendedMantissa.ofMantissaAndAccuracy m .exact >>> 0).mantissa = m := rfl
  unfold roundWithAccuracy shiftToTargetExponent shiftToExponent
  simp only [htotal, targetExponent_canonical hm hc, shiftRight_exact, hround, hexp, sub_self,
    Int.toNat_zero, hstay, Nat.cast_zero, add_zero]
  rw [dif_neg hm.ne']

/-- The significand of a value at a smaller exponent. -/
theorem eq_mul_pow_of_value_eq {n m : Nat} {q e : Int} (hq : q ≤ e)
    (h : (n * 2 ^ q : ℚ) = m * 2 ^ e) : n = m * 2 ^ (e - q).toNat := by
  rw [zpow_eq_pow_mul hq, ← mul_assoc] at h
  have hcancel := mul_right_cancel₀ (by positivity : (2 : ℚ) ^ q ≠ 0) h
  exact_mod_cast hcancel

theorem round_exact {s : Sign} {n m : Nat} {q e : Int} (hm : 0 < m) (hc : single.Canonical m e)
    (h : (n * 2 ^ q : ℚ) = m * 2 ^ e) : UnpackedFloat.round .binary32 s n q = .finite s m e hm := by
  -- From a lower exponent zeros are shifted out, from a higher one they are shifted in.
  rcases le_total q e with hq | hq
  · obtain rfl := eq_mul_pow_of_value_eq hq h
    have htotal : totalExponent (m * 2 ^ (e - q).toNat) q = totalExponent m e := by
      unfold totalExponent
      rw [log2_mul_pow hm]
      omega
    have hshift : (q - e).toNat = 0 := by omega
    unfold UnpackedFloat.round decreaseExponent
    simp only [htotal, targetExponent_canonical hm hc, hshift, Nat.shiftLeft_zero, Nat.cast_zero,
      sub_zero]
    exact roundWithAccuracy_exact hm hc hq
  · obtain rfl := eq_mul_pow_of_value_eq hq h.symm
    have hn : 0 < n := Nat.pos_of_mul_pos_right hm
    have htotal : totalExponent n q = totalExponent (n * 2 ^ (q - e).toNat) e := by
      unfold totalExponent
      rw [log2_mul_pow hn]
      omega
    have hexp : q - ((q - e).toNat : Int) = e := by omega
    have hround := roundWithAccuracy_exact (s := s) hm hc le_rfl
    rw [sub_self, Int.toNat_zero, pow_zero, mul_one] at hround
    unfold UnpackedFloat.round decreaseExponent
    simp only [htotal, targetExponent_canonical hm hc, hexp, Nat.shiftLeft_eq]
    exact hround

theorem stands_round (s : Sign) {n : Nat} {q : Int} (hn : 0 < n)
    (h : Representable (n * 2 ^ q)) :
    Stands single (UnpackedFloat.round .binary32 s n q) ((s.apply n : Int) * 2 ^ q) := by
  obtain ⟨m, e, hc, hvalue⟩ := h
  have hpos : (0 : ℚ) < n * 2 ^ q := by positivity
  rw [abs_of_pos hpos] at hvalue
  have hm : 0 < m := by
    rcases Nat.eq_zero_or_pos m with rfl | hm
    · simp [hvalue] at hpos
    · exact hm
  have hsigned : ((s.apply n : Int) * 2 ^ q : ℚ) = (s.apply m : Int) * 2 ^ e := by
    cases s <;> simp [Sign.apply, hvalue]
  rw [round_exact hm hc hvalue, hsigned]
  exact .finite s hm hc

theorem stands_normalize {M q : Int} (h : Representable (M * 2 ^ q)) :
    Stands single (UnpackedFloat.normalize .binary32 M q .positive) (M * 2 ^ q) := by
  unfold UnpackedFloat.normalize
  rcases lt_trichotomy M 0 with hM | rfl | hM
  · obtain ⟨n, rfl⟩ : ∃ n : Nat, M = -n := ⟨M.natAbs, by omega⟩
    rw [compare_lt_iff_lt.mpr hM]
    have hround := stands_round .negative (n := n) (q := q) (by omega) (by
      simpa [Representable, abs_mul] using h)
    simpa [Sign.apply] using hround
  · simpa using Stands.zero (f := single) .positive
  · obtain ⟨n, rfl⟩ : ∃ n : Nat, M = n := ⟨M.natAbs, by omega⟩
    rw [compare_gt_iff_gt.mpr hM]
    have hround := stands_round .positive (n := n) (q := q) (by omega) (by simpa using h)
    simpa [Sign.apply] using hround

/-! ## §3 Differences and quotients -/

theorem shiftLeft_value (m : Nat) {q e : Int} (hq : q ≤ e) :
    ((m <<< (e - q).toNat : Nat) * 2 ^ q : ℚ) = m * 2 ^ e := by
  rw [cast_shiftLeft, mul_assoc, ← zpow_eq_pow_mul hq]

theorem apply_mul (s : Sign) (m : Nat) (x : ℚ) :
    ((s.apply m : Int) * x : ℚ) = (s.apply 1 : Int) * (m * x) := by
  cases s <;> simp [Sign.apply]

/-- The difference of two finite numbers as a whole number of units of the smaller exponent. -/
theorem difference_value (s t : Sign) (m m' : Nat) (e e' : Int) :
    ((s.apply (m <<< (e - min e e').toNat : Nat) -
        t.apply (m' <<< (e' - min e e').toNat : Nat) : Int) * 2 ^ min e e' : ℚ) =
      (s.apply m : Int) * 2 ^ e - (t.apply m' : Int) * 2 ^ e' := by
  rw [Int.cast_sub, sub_mul, apply_mul, apply_mul, shiftLeft_value m (min_le_left e e'),
    shiftLeft_value m' (min_le_right e e'), ← apply_mul, ← apply_mul]

theorem stands_sub {u w : UnpackedFloat} {a b : ℚ} (hu : Stands single u a) (hw : Stands single w b)
    (h : Representable (a - b)) : Stands single (UnpackedFloat.sub .binary32 u w) (a - b) := by
  cases hu with
  | zero s =>
    cases hw with
    | zero t =>
      rw [sub_zero]
      cases s <;> cases t <;> exact .zero _
    | @finite t m e hm hc =>
      have hneg : (0 - (t.apply m : Int) * 2 ^ e : ℚ) = ((-t).apply m : Int) * 2 ^ e := by
        cases t
        · change (0 - ((-(m : Int) : Int) : ℚ) * 2 ^ e) = ((m : Int) : ℚ) * 2 ^ e
          push_cast
          ring
        · change (0 - ((m : Int) : ℚ) * 2 ^ e) = ((-(m : Int) : Int) : ℚ) * 2 ^ e
          push_cast
          ring
      rw [hneg]
      exact .finite (-t) hm hc
  | @finite s m e hm hc =>
    cases hw with
    | zero t =>
      rw [sub_zero]
      exact .finite s hm hc
    | @finite t m' e' hm' hc' =>
      rw [← difference_value] at h ⊢
      exact stands_normalize h

/-- A quotient does not have a smaller exponent than the one that the machine divides at. -/
theorem quotientExponent_le {m m' n : Nat} {e e' q : Int} (hm : 0 < m) (hm' : 0 < m') (hn : 0 < n)
    (hc : single.Canonical n q) (h : (m * 2 ^ e / (m' * 2 ^ e') : ℚ) = n * 2 ^ q) :
    binary32.targetExponent (totalExponent m e - totalExponent m' e') ≤ q := by
  have htarget (t : Int) : binary32.targetExponent t = max (t - 24) (-149) := rfl
  have hlow {k : Nat} (hk : 0 < k) : (2 : ℚ) ^ (k.log2 : Int) ≤ k := by
    rw [zpow_natCast]
    exact_mod_cast Nat.log2_self_le hk.ne'
  have hhigh (k : Nat) : (k : ℚ) < 2 ^ ((k.log2 : Int) + 1) := by
    have hlt : k < 2 ^ (k.log2 + 1) := Nat.lt_log2_self
    exact_mod_cast hlt
  have htwo : (2 : ℚ) ≠ 0 := by norm_num
  rw [div_eq_iff (by positivity)] at h
  -- The leading bit of a product is no higher than those of its factors together allow.
  have hless : (2 : ℚ) ^ ((m.log2 : Int) + e) <
      2 ^ ((n.log2 : Int) + 1 + q + ((m'.log2 : Int) + 1 + e')) := by
    calc (2 : ℚ) ^ ((m.log2 : Int) + e) = 2 ^ (m.log2 : Int) * 2 ^ e := zpow_add₀ htwo _ _
      _ ≤ m * 2 ^ e := by gcongr; exact hlow hm
      _ = n * 2 ^ q * (m' * 2 ^ e') := h
      _ < 2 ^ ((n.log2 : Int) + 1) * 2 ^ q * (2 ^ ((m'.log2 : Int) + 1) * 2 ^ e') := by
          gcongr
          · exact hhigh n
          · exact hhigh m'
      _ = _ := by rw [← zpow_add₀ htwo, ← zpow_add₀ htwo, ← zpow_add₀ htwo]
  have hexp := (zpow_lt_zpow_iff_right₀ (by norm_num : (1 : ℚ) < 2)).mp hless
  have hcanonical := targetExponent_canonical hn hc
  rw [htarget] at hcanonical ⊢
  unfold totalExponent at hcanonical ⊢
  omega

/-- A quotient that the format has comes out of the long division without a remainder. -/
theorem div_finite {s t : Sign} {m m' n : Nat} {e e' q : Int} (hm : 0 < m) (hm' : 0 < m')
    (hn : 0 < n) (hc : single.Canonical n q)
    (h : (m * 2 ^ e / (m' * 2 ^ e') : ℚ) = n * 2 ^ q) :
    UnpackedFloat.div .binary32 (.finite s m e hm) (.finite t m' e' hm') =
      .finite (s / t) n q hn := by
  have hexp := quotientExponent_le hm hm' hn hc h
  unfold UnpackedFloat.div divCore
  dsimp only
  generalize htarget : min (e - e')
    (binary32.targetExponent (totalExponent m e - totalExponent m' e')) = target
  -- Moved to the target exponent, the dividend is a multiple of the divisor.
  have hvalue : ((m <<< (e - e' - target).toNat : Nat) * 2 ^ target : ℚ) =
      ((n * 2 ^ (q - target).toNat * m' : Nat) : ℚ) * 2 ^ target := by
    rw [shiftLeft_value m (by omega), zpow_sub₀ (by norm_num)]
    rw [div_eq_iff (by positivity)] at h
    rw [mul_div_assoc', h, zpow_eq_pow_mul (show target ≤ q by omega)]
    push_cast
    field_simp
  have hdividend : m <<< (e - e' - target).toNat = n * 2 ^ (q - target).toNat * m' := by
    exact_mod_cast mul_right_cancel₀ (by positivity : (2 : ℚ) ^ target ≠ 0) hvalue
  rw [hdividend, Nat.mul_div_cancel _ hm', Nat.mul_mod_left]
  exact roundWithAccuracy_exact hn hc (by omega)

theorem stands_div {u w : UnpackedFloat} {a b : ℚ} (hu : Stands single u a) (hw : Stands single w b)
    (hb : b ≠ 0) (h : Representable (a / b)) :
    Stands single (UnpackedFloat.div .binary32 u w) (a / b) := by
  cases hw with
  | zero t => exact absurd rfl hb
  | @finite t m' e' hm' hc' =>
    cases hu with
    | zero s =>
      rw [zero_div]
      exact .zero _
    | @finite s m e hm hc =>
      obtain ⟨n, q, hcn, hvalue⟩ := h
      have hquotient : (m * 2 ^ e / (m' * 2 ^ e') : ℚ) = n * 2 ^ q := by
        cases s <;> cases t <;> simpa [Sign.apply, abs_div, abs_mul] using hvalue
      have hsign : ((s / t).apply 1 : ℚ) = s.apply 1 / t.apply 1 := by
        cases s <;> cases t
        · change ((1 : Int) : ℚ) = (-1 : Int) / (-1 : Int); norm_num
        · change ((-1 : Int) : ℚ) = (-1 : Int) / (1 : Int); norm_num
        · change ((-1 : Int) : ℚ) = (1 : Int) / (-1 : Int); norm_num
        · change ((1 : Int) : ℚ) = (1 : Int) / (1 : Int); norm_num
      have hsigned : ((s.apply m : Int) * 2 ^ e / ((t.apply m' : Int) * 2 ^ e') : ℚ) =
          ((s / t).apply n : Int) * 2 ^ q := by
        rw [apply_mul s, apply_mul t, apply_mul (s / t), hsign, ← hquotient, mul_div_mul_comm]
      -- Positive magnitudes do not have a zero for a quotient.
      have hn : 0 < n := by
        rcases Nat.eq_zero_or_pos n with rfl | hn
        · have hpos : (0 : ℚ) < m * 2 ^ e / (m' * 2 ^ e') := by positivity
          simp [hquotient] at hpos
        · exact hn
      rw [div_finite hm hm' hn hcn hquotient, hsigned]
      exact .finite _ hn hcn

/-- Only zeros stand for zero. -/
theorem Stands.exists_zero {f : Binary.Format} {u : UnpackedFloat} (hu : Stands f u 0) :
    ∃ s, u = .zero s := by
  generalize hv : (0 : ℚ) = v at hu
  cases hu with
  | zero s => exact ⟨s, rfl⟩
  | @finite s m e hm hc =>
    have hpos : (0 : ℚ) < m * 2 ^ e := by positivity
    cases s <;> simp only [Sign.apply] at hv <;> push_cast at hv <;> linarith

theorem stands_mul_zero {u w : UnpackedFloat} {a : ℚ} (hu : Stands single u 0)
    (hw : Stands single w a) : Stands single (UnpackedFloat.mul .binary32 u w) 0 := by
  obtain ⟨s, rfl⟩ := hu.exists_zero
  cases hw <;> exact .zero _

theorem stands_add_zero {u w : UnpackedFloat} {a : ℚ} (hu : Stands single u a)
    (hw : Stands single w 0) : Stands single (UnpackedFloat.add .binary32 u w) a := by
  obtain ⟨t, rfl⟩ := hw.exists_zero
  cases hu with
  | zero s => cases s <;> cases t <;> exact .zero _
  | finite s hm hc => exact .finite s hm hc

namespace Single

variable {x y : Float32}

/-- A difference that the format has is computed without rounding. -/
theorem sub_value (hx : x.isFinite = true) (hy : y.isFinite = true)
    (h : Representable (value x - value y)) :
    (x - y).isFinite = true ∧ value (x - y) = value x - value y :=
  value_of_stands rfl (stands_sub (stands_unpack hx) (stands_unpack hy) h)

theorem sub_value_of_eq (hx : x.isFinite = true) (hy : y.isFinite = true)
    (h : value x = value y) : (x - y).isFinite = true ∧ value (x - y) = 0 := by
  have hzero : value x - value y = 0 := by rw [h, sub_self]
  obtain ⟨hfinite, hvalue⟩ := sub_value hx hy ⟨0, _, single.canonical_zero, by simp [hzero]⟩
  exact ⟨hfinite, hvalue.trans hzero⟩

/-- A quotient that the format has is computed without rounding. -/
theorem div_value (hx : x.isFinite = true) (hy : y.isFinite = true) (hzero : value y ≠ 0)
    (h : Representable (value x / value y)) :
    (x / y).isFinite = true ∧ value (x / y) = value x / value y :=
  value_of_stands rfl (stands_div (stands_unpack hx) (stands_unpack hy) hzero h)

/-- A point between a value and itself is that value. -/
theorem blend_self (hx : x.isFinite = true) (hy : y.isFinite = true) :
    (Scalar.blend x x y == x) = true := by
  obtain ⟨hdifference, hzero⟩ := sub_value_of_eq hx hx rfl
  have hproduct : ((x - x) * y).isFinite = true ∧ value ((x - x) * y) = 0 :=
    value_of_stands rfl (stands_mul_zero (hzero ▸ stands_unpack hdifference) (stands_unpack hy))
  have hsum : (x + (x - x) * y).isFinite = true ∧ value (x + (x - x) * y) = value x :=
    value_of_stands rfl
      (stands_add_zero (stands_unpack hx) (hproduct.2 ▸ stands_unpack hproduct.1))
  exact (beq_iff_value hsum.1 hx).mpr hsum.2

/-- What lies between two finite values is finite. -/
theorem isFinite_of_le {z : Float32} (hx : x.isFinite = true) (hz : z.isFinite = true)
    (hxy : x < y) (hyz : y ≤ z) : y.isFinite = true := by
  have hnan := (isNaN_of_lt hxy).2
  have hnumber := decode_ne_nan hnan
  rw [compare_place (isNaN_of_isFinite hx) hnan, place_of_isFinite hx] at hxy
  rw [le_iff_place hnan (isNaN_of_isFinite hz), place_of_isFinite hz] at hyz
  cases hdecode : single.decode y.toBits.toNat with
  | finite s m e => exact isFinite_of_decode hdecode
  | nan s p => exact absurd hdecode (hnumber s p)
  | infinite s =>
    rw [hdecode] at hxy hyz
    cases s
    · exact absurd hyz (WithBot.coe_lt_coe.mpr (WithTop.coe_lt_top _)).not_ge
    · exact absurd hxy not_lt_bot

end Single

end Machine

end CommonLut.Binary
