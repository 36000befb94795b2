import CommonLut.Proofs.Binary.Patterns
import Mathlib.Algebra.Order.Field.Power
import Mathlib.Data.Rat.Cast.Order
import Mathlib.Tactic.FieldSimp
import Mathlib.Tactic.Linarith
import Mathlib.Tactic.NormNum
import Mathlib.Tactic.Positivity
import Mathlib.Tactic.Ring

/-!
# Rounding to the nearest pattern

The exact value of a quotient decides its nearest pattern. Around each canonical form lies the
interval of the values that round to it; its ends belong to it when the significand is even. Every
value in the interval, however it is written as a quotient and a power of two, is rounded to the
pattern of that canonical form.

Main definitions: `Format.lowerGap`, `Format.RoundsTo`.
Main statement: `Format.nearest_eq`.
-/

namespace CommonLut.Binary

/-! ## §1 Powers as shifts -/

theorem zpow_mul_pow_toNat {b : ℚ} (hb : b ≠ 0) (e : ℤ) :
    b ^ e * b ^ (-e).toNat = b ^ e.toNat := by
  rw [← zpow_natCast b (-e).toNat, ← zpow_natCast b e.toNat, ← zpow_add₀ hb]
  congr 1
  omega

/-- A power of two as a whole number of smaller ones. -/
theorem zpow_eq_pow_mul {q e : ℤ} (hq : q ≤ e) : (2 : ℚ) ^ e = 2 ^ (e - q).toNat * 2 ^ q := by
  rw [← zpow_natCast, ← zpow_add₀ (by norm_num)]
  congr 1
  omega

theorem cast_shiftLeft (n k : Nat) : ((n <<< k : Nat) : ℚ) = n * 2 ^ k := by
  rw [Nat.shiftLeft_eq]
  push_cast
  rfl

/-- A quotient of shifted numbers is a quotient times a power of two. -/
theorem shiftLeft_div_shiftLeft (n d : Nat) (e : ℤ) :
    ((n <<< e.toNat : Nat) : ℚ) / ((d <<< (-e).toNat : Nat) : ℚ) = n / d * 2 ^ e := by
  have h := zpow_mul_pow_toNat (b := 2) (by norm_num) e
  rw [cast_shiftLeft, cast_shiftLeft, ← h]
  by_cases hd : (d : ℚ) = 0
  · simp [hd]
  · field_simp

/-- A comparison of shifted numbers is one of quotients. -/
theorem shiftLeft_le_shiftLeft {n d : Nat} (hd : 0 < d) (e : ℤ) :
    d <<< e.toNat ≤ n <<< (-e).toNat ↔ (2 : ℚ) ^ e ≤ n / d := by
  have hd' : (0 : ℚ) < d := by exact_mod_cast hd
  have h := zpow_mul_pow_toNat (b := 2) (by norm_num) e
  rw [← Nat.cast_le (α := ℚ), cast_shiftLeft, cast_shiftLeft, ← h, le_div_iff₀ hd']
  have hpos : (0 : ℚ) < 2 ^ (-e).toNat := by positivity
  rw [← mul_assoc, mul_le_mul_iff_left₀ hpos, mul_comm (d : ℚ)]

/-! ## §2 Quotients -/

/-- A quotient within one half of a number is rounded to it; at exactly one half the number has to
be even. -/
theorem divideToEven_eq_of_le {n d m : Nat} (hd : 0 < d) (hlow : 2 * m * d ≤ 2 * n + d)
    (hhigh : 2 * n ≤ (2 * m + 1) * d)
    (hodd : m % 2 = 1 → 2 * m * d < 2 * n + d ∧ 2 * n < (2 * m + 1) * d) :
    Format.divideToEven n d = m := by
  have hdiv : d * (n / d) + n % d = n := Nat.div_add_mod n d
  have hmod : n % d < d := Nat.mod_lt n hd
  unfold Format.divideToEven
  dsimp only
  -- Only the division with remainder counts, so quotient and remainder are taken as they come.
  generalize n / d = q at hdiv
  generalize n % d = r at hdiv hmod
  subst hdiv
  have hle : q ≤ m := by
    by_contra hlt
    have : d * (m + 1) ≤ d * q := Nat.mul_le_mul_left d (by omega)
    nlinarith
  have hge : m ≤ q + 1 := by
    by_contra hlt
    have : d * (q + 2) ≤ d * m := Nat.mul_le_mul_left d (by omega)
    nlinarith
  rcases Nat.lt_or_ge q m with hq | hq
  · -- The number is above the quotient, so it is rounded up.
    obtain rfl : m = q + 1 := by omega
    have hr : d ≤ 2 * r := by nlinarith
    rw [if_neg (by omega)]
    split
    · rfl
    · have heven : (q + 1) % 2 ≠ 1 := fun h => by
        have := (hodd h).1
        nlinarith
      omega
  · obtain rfl : m = q := by omega
    have hr : 2 * r ≤ d := by nlinarith
    split
    · rfl
    · have heven : m % 2 ≠ 1 := fun h => by
        have := (hodd h).2
        nlinarith
      rw [if_neg (by omega)]
      omega

/-- The same for the exact quotient. -/
theorem divideToEven_eq {n d m : Nat} (hd : 0 < d) (hlow : (2 * m - 1 : ℚ) ≤ 2 * (n / d))
    (hhigh : 2 * (n / d) ≤ (2 * m + 1 : ℚ))
    (hodd : m % 2 = 1 → (2 * m - 1 : ℚ) < 2 * (n / d) ∧ 2 * (n / d) < (2 * m + 1 : ℚ)) :
    Format.divideToEven n d = m := by
  have hd' : (0 : ℚ) < d := by exact_mod_cast hd
  have hmul : (n : ℚ) / d * d = n := div_mul_cancel₀ _ hd'.ne'
  -- Multiplied by the divisor, each bound is one between naturals.
  apply divideToEven_eq_of_le hd
  · have h := mul_le_mul_of_nonneg_right hlow hd'.le
    have h' : (2 * m * d : ℚ) ≤ 2 * n + d := by linarith
    exact_mod_cast h'
  · have h := mul_le_mul_of_nonneg_right hhigh hd'.le
    have h' : (2 * n : ℚ) ≤ (2 * m + 1) * d := by linarith
    exact_mod_cast h'
  · intro hm
    obtain ⟨h₁, h₂⟩ := hodd hm
    have h₁' := mul_lt_mul_of_pos_right h₁ hd'
    have h₂' := mul_lt_mul_of_pos_right h₂ hd'
    have h₁Q : (2 * m * d : ℚ) < 2 * n + d := by linarith
    have h₂Q : (2 * n : ℚ) < (2 * m + 1) * d := by linarith
    exact ⟨by exact_mod_cast h₁Q, by exact_mod_cast h₂Q⟩

/-- The binary exponent of a quotient. -/
theorem binaryExponent_spec {n d : Nat} (hn : 0 < n) (hd : 0 < d) :
    (2 : ℚ) ^ Format.binaryExponent n d ≤ n / d ∧
      (n / d : ℚ) < 2 ^ (Format.binaryExponent n d + 1) := by
  have hn' : (2 : ℚ) ^ n.log2 ≤ n ∧ (n : ℚ) < 2 ^ (n.log2 + 1) :=
    ⟨by exact_mod_cast Nat.log2_self_le hn.ne', by exact_mod_cast Nat.lt_log2_self⟩
  have hd' : (2 : ℚ) ^ d.log2 ≤ d ∧ (d : ℚ) < 2 ^ (d.log2 + 1) :=
    ⟨by exact_mod_cast Nat.log2_self_le hd.ne', by exact_mod_cast Nat.lt_log2_self⟩
  have hdpos : (0 : ℚ) < d := by exact_mod_cast hd
  have htwo : (2 : ℚ) ≠ 0 := by norm_num
  have hbelow : (2 : ℚ) ^ ((n.log2 : ℤ) - d.log2 - 1) ≤ n / d := by
    rw [le_div_iff₀ hdpos]
    calc (2 : ℚ) ^ ((n.log2 : ℤ) - d.log2 - 1) * d
        ≤ 2 ^ ((n.log2 : ℤ) - d.log2 - 1) * 2 ^ (d.log2 + 1) := by gcongr; exact hd'.2.le
      _ = 2 ^ n.log2 := by
          rw [← zpow_natCast, ← zpow_natCast, ← zpow_add₀ htwo]
          congr 1
          push_cast
          ring
      _ ≤ n := hn'.1
  have habove : (n / d : ℚ) < 2 ^ ((n.log2 : ℤ) - d.log2 + 1) := by
    rw [div_lt_iff₀ hdpos]
    calc (n : ℚ) < 2 ^ (n.log2 + 1) := hn'.2
      _ = 2 ^ ((n.log2 : ℤ) - d.log2 + 1) * 2 ^ d.log2 := by
          rw [← zpow_natCast, ← zpow_natCast, ← zpow_add₀ htwo]
          congr 1
          push_cast
          ring
      _ ≤ 2 ^ ((n.log2 : ℤ) - d.log2 + 1) * d := by gcongr; exact hd'.1
  -- The logarithms leave two exponents to choose from, and a comparison decides.
  unfold Format.binaryExponent
  dsimp only
  split
  · next h => exact ⟨(shiftLeft_le_shiftLeft hd _).mp h, habove⟩
  · next h =>
    rw [shiftLeft_le_shiftLeft hd, not_le] at h
    exact ⟨hbelow, by simpa using h⟩

/-! ## §3 The rounding interval -/

namespace Format

/-- Four times the gap below a canonical form in units of its exponent, halved: below a power of
two the values are twice as dense. -/
def lowerGap (f : Format) (m : Nat) (e : Int) : Nat :=
  if m = f.fieldUnit ∧ f.leastExponent < e then 1 else 2

/-- The values that round to `m * 2 ^ e`. -/
structure RoundsTo (f : Format) (m : Nat) (e : Int) (v : ℚ) : Prop where
  low : (4 * m - f.lowerGap m e) * 2 ^ e ≤ 4 * v
  high : 4 * v ≤ (4 * m + 2) * 2 ^ e
  odd : m % 2 = 1 → (4 * m - f.lowerGap m e) * 2 ^ e < 4 * v ∧ 4 * v < (4 * m + 2) * 2 ^ e

theorem lowerGap_le (f : Format) (m : Nat) (e : Int) : (f.lowerGap m e : ℚ) ≤ 2 := by
  unfold lowerGap
  split <;> norm_num

theorem cast_fieldUnit (f : Format) : (f.fieldUnit : ℚ) = 2 ^ ((f.precision : ℤ) - 1) := by
  cases f <;> norm_num [fieldUnit, precision]

theorem RoundsTo.pos {f : Format} {m : Nat} {e : Int} {v : ℚ} (h : f.RoundsTo m e v)
    (hm : 0 < m) : 0 < v := by
  have hgap := f.lowerGap_le m e
  have hm' : (1 : ℚ) ≤ m := by exact_mod_cast hm
  have hpow : (0 : ℚ) < 2 ^ e := by positivity
  have hlow := h.low
  nlinarith

/-- A value rounds to itself. -/
theorem roundsTo_self (f : Format) (m : Nat) (e : Int) : f.RoundsTo m e (m * 2 ^ e) := by
  have hpow : (0 : ℚ) < 2 ^ e := by positivity
  have hgap : (0 : ℚ) < f.lowerGap m e := by
    unfold lowerGap
    split <;> norm_num
  exact ⟨by nlinarith, by nlinarith, fun _ => ⟨by nlinarith, by nlinarith⟩⟩

/-- The least significand with a leading bit is a power of two. -/
theorem fieldUnit_mul_zpow (f : Format) (e : ℤ) :
    (f.fieldUnit * 2 ^ e : ℚ) = 2 ^ ((f.precision : ℤ) - 1 + e) := by
  rw [cast_fieldUnit, ← zpow_add₀ (by norm_num)]

/-- A value does not reach the end of the range of the exponent that it rounds to. -/
theorem RoundsTo.lt_zpow {f : Format} {m : Nat} {e : Int} {v : ℚ} (h : f.RoundsTo m e v)
    (hc : f.Canonical m e) : v < 2 ^ ((f.precision : ℤ) + e) := by
  have hpow : (0 : ℚ) < 2 ^ e := by positivity
  have hm : (m : ℚ) + 1 ≤ 2 * f.fieldUnit := by exact_mod_cast hc.below
  have hdouble : (2 : ℚ) ^ ((f.precision : ℤ) + e) = 2 * (f.fieldUnit * 2 ^ e) := by
    rw [fieldUnit_mul_zpow, ← zpow_one_add₀ (by norm_num)]
    congr 1
    ring
  have hhigh := h.high
  rw [hdouble]
  nlinarith

/-- Of the values with a leading bit only those that round to a power of two can lie below it. -/
theorem RoundsTo.eq_fieldUnit {f : Format} {m : Nat} {e : Int} {v : ℚ} (h : f.RoundsTo m e v)
    (hm : f.fieldUnit ≤ m) (hv : v < f.fieldUnit * 2 ^ e) : m = f.fieldUnit := by
  have hpow : (0 : ℚ) < 2 ^ e := by positivity
  have hgap := f.lowerGap_le m e
  by_contra hne
  have hlt : (f.fieldUnit : ℚ) + 1 ≤ m := by exact_mod_cast (show f.fieldUnit + 1 ≤ m by omega)
  have hlow := h.low
  nlinarith

/-- What rounds to a power of two is at least half of it. -/
theorem RoundsTo.half_le {f : Format} {e : Int} {v : ℚ} (h : f.RoundsTo f.fieldUnit e v)
    (hleast : f.leastExponent < e) : (2 : ℚ) ^ ((f.precision : ℤ) - 2 + e) ≤ v := by
  have hpow : (0 : ℚ) < 2 ^ e := by positivity
  have hunit : (1 : ℚ) ≤ f.fieldUnit := by exact_mod_cast f.fieldUnit_pos
  have hsplit : (2 : ℚ) * 2 ^ ((f.precision : ℤ) - 2 + e) = f.fieldUnit * 2 ^ e := by
    rw [fieldUnit_mul_zpow, ← zpow_one_add₀ (by norm_num)]
    congr 1
    ring
  have hlow := h.low
  rw [lowerGap, if_pos ⟨rfl, hleast⟩] at hlow
  push_cast at hlow
  nlinarith

/-- The exponent at which a value is rounded: that of the canonical form, or the one below when
the value lies under the power of two that it rounds to. -/
theorem roundingExponent {f : Format} {m : Nat} {e B : Int} {v : ℚ} (hc : f.Canonical m e)
    (h : f.RoundsTo m e v) (hB : (2 : ℚ) ^ B ≤ v) (hB' : v < 2 ^ (B + 1)) :
    max (B + 1 - f.precision) f.leastExponent = e ∨
      max (B + 1 - f.precision) f.leastExponent = e - 1 ∧ m = f.fieldUnit ∧
        f.leastExponent < e ∧ v < f.fieldUnit * 2 ^ e := by
  have hone : (1 : ℚ) < 2 := by norm_num
  have hupper : B < f.precision + e :=
    (zpow_lt_zpow_iff_right₀ hone).mp (hB.trans_lt (h.lt_zpow hc))
  rcases hc.least.eq_or_lt with hleast | hleast
  · left
    omega
  · have hm : f.fieldUnit ≤ m := by
      have := hc.leading
      omega
    -- The exponent of the value is compared with that of the least significand.
    rcases le_or_gt (f.fieldUnit * 2 ^ e : ℚ) v with hv | hv
    · left
      rw [fieldUnit_mul_zpow] at hv
      have := (zpow_lt_zpow_iff_right₀ hone).mp (hv.trans_lt hB')
      omega
    · right
      obtain rfl := h.eq_fieldUnit hm hv
      have hB₁ := (zpow_lt_zpow_iff_right₀ hone).mp ((h.half_le hleast).trans_lt hB')
      have hv' := hv
      rw [fieldUnit_mul_zpow] at hv'
      have hB₂ := (zpow_lt_zpow_iff_right₀ hone).mp (hB.trans_lt hv')
      exact ⟨by omega, rfl, hleast, hv⟩

section

variable {f : Format} {n d m : Nat} {e : Int} {v : ℚ}

/-- A quotient that is a value in units of its exponent is rounded to the significand. -/
theorem divideToEven_of_roundsTo (hd : 0 < d) (hquot : (n / d : ℚ) = v / 2 ^ e)
    (h : f.RoundsTo m e v) : divideToEven n d = m := by
  have hpow : (0 : ℚ) < 2 ^ e := by positivity
  have hgap := f.lowerGap_le m e
  refine divideToEven_eq hd ?_ ?_ fun hodd => ?_
  · rw [hquot, mul_div_assoc', le_div_iff₀ hpow]
    nlinarith [h.low]
  · rw [hquot, mul_div_assoc', div_le_iff₀ hpow]
    nlinarith [h.high]
  · obtain ⟨h₁, h₂⟩ := h.odd hodd
    rw [hquot, mul_div_assoc', lt_div_iff₀ hpow, div_lt_iff₀ hpow]
    exact ⟨by nlinarith, by nlinarith⟩

/-- In units of the exponent below, a value just under a power of two is rounded to the power. -/
theorem divideToEven_of_below (hd : 0 < d) (hquot : (n / d : ℚ) = v / 2 ^ (e - 1))
    (h : f.RoundsTo f.fieldUnit e v) (hleast : f.leastExponent < e)
    (hv : v < f.fieldUnit * 2 ^ e) : divideToEven n d = 2 * f.fieldUnit := by
  have hpow : (0 : ℚ) < 2 ^ (e - 1) := by positivity
  have hstep : (2 : ℚ) ^ e = 2 * 2 ^ (e - 1) := by
    rw [← zpow_one_add₀ (by norm_num)]
    congr 1
    ring
  have hlow := h.low
  rw [lowerGap, if_pos ⟨rfl, hleast⟩, hstep] at hlow
  rw [hstep] at hv
  push_cast at hlow
  refine divideToEven_eq hd ?_ ?_ fun hodd => ?_
  · rw [hquot, mul_div_assoc', le_div_iff₀ hpow]
    push_cast
    nlinarith
  · rw [hquot, mul_div_assoc', div_le_iff₀ hpow]
    push_cast
    nlinarith
  · -- A power of two is even, so a tie goes to it.
    omega

/-- The doubled significand of a power of two, one exponent below, has the bits of the power. -/
theorem finiteBits_fieldUnit (hleast : f.leastExponent < e) :
    2 * f.fieldUnit + (e - 1 - f.leastExponent).toNat * f.fieldUnit =
      f.finiteBits f.fieldUnit e := by
  obtain ⟨k, hk⟩ : ∃ k, (e - f.leastExponent).toNat = k + 1 :=
    ⟨(e - 1 - f.leastExponent).toNat, by omega⟩
  have hk' : (e - 1 - f.leastExponent).toNat = k := by omega
  rw [finiteBits, hk, hk']
  ring

/-- The power of two below a scaled quotient. -/
theorem binaryExponent_scaled (hn : 0 < n) (hd : 0 < d) (q : Int) :
    (2 : ℚ) ^ (binaryExponent n d + q) ≤ n / d * 2 ^ q ∧
      (n / d * 2 ^ q : ℚ) < 2 ^ (binaryExponent n d + q + 1) := by
  have htwo : (2 : ℚ) ≠ 0 := by norm_num
  obtain ⟨hlow, hhigh⟩ := binaryExponent_spec hn hd
  constructor
  · rw [zpow_add₀ htwo]
    gcongr
  · rw [add_right_comm, zpow_add₀ htwo]
    gcongr

/-- The quotient that is rounded is the value in units of the exponent. -/
theorem scaled_quotient (n d : Nat) (q last : Int) :
    ((n <<< (q - last).toNat : Nat) : ℚ) / ((d <<< (last - q).toNat : Nat) : ℚ) =
      n / d * 2 ^ q / 2 ^ last := by
  have hsplit := shiftLeft_div_shiftLeft n d (q - last)
  rw [neg_sub] at hsplit
  rw [hsplit, zpow_sub₀ (by norm_num), mul_div_assoc]

/-- A quotient in the rounding interval of a canonical form is rounded to its pattern. -/
theorem nearest_eq {q : Int} (s : Bool) (hd : 0 < d) (hc : f.Canonical m e) (hm : 0 < m)
    (h : f.RoundsTo m e (n / d * 2 ^ q)) : f.nearest s n d q = f.withSign s (f.finiteBits m e) := by
  have hn : 0 < n := by
    rcases Nat.eq_zero_or_pos n with hn | hn
    · have := h.pos hm
      simp [hn] at this
    · exact hn
  obtain ⟨hB, hB'⟩ := binaryExponent_scaled hn hd q
  have hunits : f.finiteBits m e < f.infinityBits := hc.finite
  have hlast := roundingExponent hc h hB hB'
  unfold nearest
  rw [if_neg hn.ne']
  dsimp only
  generalize max (binaryExponent n d + q + 1 - f.precision) f.leastExponent = last at hlast
  have hshift : 0 < d <<< (last - q).toNat := by
    rw [Nat.shiftLeft_eq]
    positivity
  have hquot := scaled_quotient n d q last
  rcases hlast with rfl | ⟨rfl, rfl, hleast, hv⟩
  · rw [divideToEven_of_roundsTo hshift hquot h]
    congr 1
    exact Nat.min_eq_left hunits.le
  · -- The value is just below the power of two that it rounds to.
    rw [divideToEven_of_below hshift hquot h hleast hv, finiteBits_fieldUnit hleast]
    congr 1
    exact Nat.min_eq_left hunits.le

end

end Format

end CommonLut.Binary
