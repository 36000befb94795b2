import CommonLut.Proofs.Binary.Order

/-!
# The interval of what has been rounded

A value lies in the rounding interval of the pattern that it was rounded to, unless that is
infinity. Together with the converse, that every value of the interval is rounded to the pattern,
this says what rounding does, without looking at the arithmetic that does it.

Main definition: `Format.Significand`.
Main statements: `Format.divideToEven_spec`, `Format.exists_significand`,
`Format.roundsTo_of_nearest`.
-/

namespace CommonLut.Binary.Format

/-- The number that a quotient is rounded to is within one half of it, and closer when it is odd. -/
theorem divideToEven_spec {n d : Nat} (hd : 0 < d) :
    2 * divideToEven n d * d ≤ 2 * n + d ∧ 2 * n ≤ (2 * divideToEven n d + 1) * d ∧
      (divideToEven n d % 2 = 1 → 2 * divideToEven n d * d < 2 * n + d ∧
        2 * n < (2 * divideToEven n d + 1) * d) := by
  have hdiv : d * (n / d) + n % d = n := Nat.div_add_mod n d
  have hmod : n % d < d := Nat.mod_lt n hd
  unfold divideToEven
  dsimp only
  generalize n / d = t at hdiv
  generalize n % d = r at hdiv hmod
  subst hdiv
  split
  · exact ⟨by nlinarith, by nlinarith, fun _ => ⟨by nlinarith, by nlinarith⟩⟩
  · split
    · exact ⟨by nlinarith, by nlinarith, fun _ => ⟨by nlinarith, by nlinarith⟩⟩
    · -- A tie goes to the even one of the two numbers.
      rcases Nat.mod_two_eq_zero_or_one t with ht | ht
      · rw [ht, Nat.add_zero]
        exact ⟨by nlinarith, by nlinarith, fun hodd => by omega⟩
      · rw [ht]
        exact ⟨by nlinarith, by nlinarith, fun hodd => by omega⟩

variable {f : Format} {n d m : Nat} {e q : Int} {s : Bool}

/-- The same for the exact quotient. -/
theorem divideToEven_interval (hd : 0 < d) {x : ℚ} (hx : (n / d : ℚ) = x) :
    (2 * divideToEven n d - 1 : ℚ) ≤ 2 * x ∧ 2 * x ≤ 2 * divideToEven n d + 1 ∧
      (divideToEven n d % 2 = 1 →
        (2 * divideToEven n d - 1 : ℚ) < 2 * x ∧ 2 * x < 2 * divideToEven n d + 1) := by
  have hd' : (0 : ℚ) < d := by exact_mod_cast hd
  obtain ⟨hlow, hhigh, hodd⟩ := divideToEven_spec (n := n) hd
  generalize divideToEven n d = r at hlow hhigh hodd
  have hn : (n : ℚ) = x * d := by rw [← hx, div_mul_cancel₀ _ hd'.ne']
  refine ⟨?_, ?_, fun h => ⟨?_, ?_⟩⟩
  · have hcast : (2 * r * d : ℚ) ≤ 2 * n + d := by exact_mod_cast hlow
    exact le_of_mul_le_mul_right (by linarith) hd'
  · have hcast : (2 * n : ℚ) ≤ (2 * r + 1) * d := by exact_mod_cast hhigh
    exact le_of_mul_le_mul_right (by linarith) hd'
  · have hcast : (2 * r * d : ℚ) < 2 * n + d := by exact_mod_cast (hodd h).1
    exact lt_of_mul_lt_mul_right (by linarith) hd'.le
  · have hcast : (2 * n : ℚ) < (2 * r + 1) * d := by exact_mod_cast (hodd h).2
    exact lt_of_mul_lt_mul_right (by linarith) hd'.le

theorem fieldUnit_even (f : Format) : f.fieldUnit % 2 = 0 := by
  cases f <;> decide

/-- A significand for an exponent, within one half of a unit of the value. -/
structure Significand (f : Format) (v : ℚ) (r : Nat) (last : Int) : Prop where
  least : f.leastExponent ≤ last
  below : v < 2 * f.fieldUnit * 2 ^ last
  above : f.leastExponent < last → f.fieldUnit * 2 ^ last ≤ v
  low : (2 * r - 1 : ℚ) * 2 ^ last ≤ 2 * v
  high : 2 * v ≤ (2 * r + 1) * 2 ^ last
  odd : r % 2 = 1 → (2 * r - 1 : ℚ) * 2 ^ last < 2 * v ∧ 2 * v < (2 * r + 1) * 2 ^ last

/-- The rounding interval of the magnitude that a rounded significand and its exponent make up. -/
theorem roundsTo_of_significand {last : Int} {r : Nat} {v : ℚ} (hc : f.Canonical m e)
    (hr : f.Significand v r last)
    (hbits : r + (last - f.leastExponent).toNat * f.fieldUnit = f.finiteBits m e) :
    f.RoundsTo m e v := by
  obtain ⟨hleast, hbelow, habove, hlow, hhigh, hodd⟩ := hr
  have hpow : (0 : ℚ) < 2 ^ last := by positivity
  have hr : r ≤ 2 * f.fieldUnit := by
    have hless : (2 * r - 1 : ℚ) < 4 * f.fieldUnit := lt_of_mul_lt_mul_right (by linarith) hpow.le
    have hless' : (2 * r : ℚ) < 4 * f.fieldUnit + 1 := by linarith
    have hcast : 2 * r < 4 * f.fieldUnit + 1 := by exact_mod_cast hless'
    omega
  have hleading : f.fieldUnit ≤ r ∨ last = f.leastExponent := by
    rcases hleast.eq_or_lt with heq | hlt
    · exact .inr heq.symm
    · have hmore : (2 * f.fieldUnit : ℚ) ≤ 2 * r + 1 :=
        le_of_mul_le_mul_right (by linarith [habove hlt]) hpow
      have hcast : 2 * f.fieldUnit ≤ 2 * r + 1 := by exact_mod_cast hmore
      omega
  rcases hr.lt_or_eq with hr | rfl
  · have hc' : f.Canonical r last := ⟨hleast, hr, hleading, hbits.trans_lt hc.finite⟩
    obtain ⟨rfl, rfl⟩ := hc'.eq_of_finiteBits_eq hc hbits
    by_cases hgap : r = f.fieldUnit ∧ f.leastExponent < last
    · -- Below a power of two the interval ends early, but the value is not below it.
      have hv := habove hgap.2
      rw [← hgap.1] at hv
      have heven := f.fieldUnit_even
      refine ⟨?_, by linarith, fun h => by omega⟩
      rw [lowerGap, if_pos hgap]
      push_cast
      nlinarith
    · refine ⟨?_, by linarith, fun h => ⟨?_, by linarith [(hodd h).2]⟩⟩
      · rw [lowerGap, if_neg hgap]
        push_cast
        linarith
      · rw [lowerGap, if_neg hgap]
        push_cast
        linarith [(hodd h).1]
  · -- The significand has been rounded up to the next power of two.
    have hunit := f.fieldUnit_pos
    have hnext : f.leastExponent < last + 1 := by omega
    have hfield := finiteBits_fieldUnit hnext
    rw [add_sub_cancel_right] at hfield
    have hc' : f.Canonical f.fieldUnit (last + 1) :=
      ⟨hnext.le, by omega, .inl le_rfl, (hfield.symm.trans hbits).trans_lt hc.finite⟩
    obtain ⟨rfl, rfl⟩ := hc'.eq_of_finiteBits_eq hc (hfield.symm.trans hbits)
    have hstep : (2 : ℚ) ^ (last + 1) = 2 * 2 ^ last := by
      rw [zpow_add_one₀ (by norm_num), mul_comm]
    have heven := f.fieldUnit_even
    push_cast at hlow
    refine ⟨?_, ?_, fun h => by omega⟩
    · rw [lowerGap, if_pos ⟨rfl, hnext⟩, hstep]
      push_cast
      nlinarith
    · rw [hstep]
      nlinarith

/-- A positive value is rounded by its significand, and what is too large becomes infinite. -/
theorem exists_significand (f : Format) (s : Bool) (hn : 0 < n) (hd : 0 < d) (q : Int) :
    ∃ r last, f.Significand (n / d * 2 ^ q) r last ∧ f.nearest s n d q =
      f.withSign s (min (r + (last - f.leastExponent).toNat * f.fieldUnit) f.infinityBits) := by
  obtain ⟨hB, hB'⟩ := binaryExponent_scaled hn hd q
  unfold nearest
  rw [if_neg hn.ne']
  dsimp only
  generalize hlast : max (binaryExponent n d + q + 1 - f.precision) f.leastExponent = last
  generalize binaryExponent n d + q = B at hB hB' hlast
  have hshift : 0 < d <<< (last - q).toNat := by
    rw [Nat.shiftLeft_eq]
    positivity
  -- In units of the last place the number is within a half of its significand.
  obtain ⟨hlow, hhigh, hodd⟩ := divideToEven_interval hshift (scaled_quotient n d q last)
  have hpow : (0 : ℚ) < 2 ^ last := by positivity
  refine ⟨_, last, ⟨by omega, ?_, fun hlt => ?_, ?_, ?_, ?_⟩, rfl⟩
  · refine hB'.trans_le ?_
    rw [mul_assoc, fieldUnit_mul_zpow, ← zpow_one_add₀ (by norm_num)]
    exact zpow_le_zpow_right₀ (by norm_num) (by omega)
  · refine le_trans ?_ hB
    rw [fieldUnit_mul_zpow]
    exact zpow_le_zpow_right₀ (by norm_num) (by omega)
  · rwa [← mul_div_assoc, le_div_iff₀ hpow] at hlow
  · rwa [← mul_div_assoc, div_le_iff₀ hpow] at hhigh
  · rwa [← mul_div_assoc, lt_div_iff₀ hpow, div_lt_iff₀ hpow] at hodd

/-- What has been rounded to a finite pattern lies in its rounding interval. -/
theorem roundsTo_of_nearest (hn : 0 < n) (hd : 0 < d) (hc : f.Canonical m e)
    (h : f.nearest s n d q = f.withSign s (f.finiteBits m e)) :
    f.RoundsTo m e (n / d * 2 ^ q) := by
  have hfinite : f.finiteBits m e < f.infinityBits := hc.finite
  obtain ⟨r, last, hr, hnearest⟩ := f.exists_significand s hn hd q
  rw [hnearest] at h
  have hmin := withSign_inj h
  have hbits : r + (last - f.leastExponent).toNat * f.fieldUnit = f.finiteBits m e := by omega
  exact roundsTo_of_significand hc hr hbits

end CommonLut.Binary.Format
