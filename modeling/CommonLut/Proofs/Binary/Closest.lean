import CommonLut.Proofs.Binary.Narrowing
import CommonLut.Proofs.Binary.Nearest
import CommonLut.Proofs.Binary.Value

/-!
# Closest values, and rounding twice

Rounding takes a number to a value of the format that none of its values is closer than, as long as
the number is in the range of the format. A number that is rounded to single precision first and
then to half precision need not end at a closest half value. It fails to exactly when the single is
half way between two half values, the number is on one side of it, and the second rounding goes to
the other: every number half way between neighbouring half values is a single, so the first rounding
never carries a number across one.

Main definitions: `Format.IsValue`, `Format.Closest`.
Main statements: `Format.exists_closest`, `Format.Closest.twice_iff`.
-/

namespace CommonLut.Binary

/-! ## §1 Closer numbers -/

/-- Reflection keeps distances. -/
theorem abs_neg_sub_neg (v w : ℚ) : |-v - -w| = |v - w| := by
  rw [neg_sub_neg, abs_sub_comm]

/-- Of two numbers the larger is the closer one beyond the middle between them. -/
theorem abs_sub_lt_abs_sub_iff {v w u : ℚ} (h : w < u) : |v - u| < |v - w| ↔ w + u < 2 * v := by
  constructor
  · intro hnear
    by_contra hle
    have hover : v - w ≤ |v - u| := by linarith [neg_abs_le (v - u)]
    have hunder : -(v - w) ≤ |v - u| := by linarith [neg_abs_le (v - u)]
    exact absurd (abs_le'.mpr ⟨hover, hunder⟩) hnear.not_ge
  · intro hmiddle
    rw [abs_lt]
    have hright : v - w ≤ |v - w| := le_abs_self _
    exact ⟨by linarith, by linarith⟩

namespace Format

/-! ## §2 Values of a format -/

/-- The numbers that the finite patterns of a format stand for. -/
def IsValue (f : Format) (v : ℚ) : Prop :=
  ∃ bits < f.patternCount, ∃ s m e, f.decode bits = .finite s m e ∧ (f.decode bits).value = v

variable {f : Format} {v w u : ℚ}

/-- The values are the numbers with the magnitude of a canonical form. -/
theorem isValue_iff : f.IsValue v ↔ ∃ m e, f.Canonical m e ∧ |v| = m * 2 ^ e := by
  constructor
  · rintro ⟨bits, hbits, s, m, e, hdecode, hvalue⟩
    -- Of all patterns only those of canonical forms have a value.
    cases shape hbits with
    | infinite t =>
      rw [decode_withSign_infinity] at hdecode
      cases hdecode
    | nan t hpos hr =>
      rw [decode_withSign_nan t hpos hr] at hdecode
      cases hdecode
    | @finite t m e hc =>
      rw [decode_withSign_finiteBits t hc] at hvalue
      refine ⟨m, e, hc, ?_⟩
      rw [← hvalue, Datum.value, abs_signed, abs_of_nonneg (by positivity)]
  · rintro ⟨m, e, hc, hvalue⟩
    have hsign : f.finiteBits m e < f.signBit := hc.finite.trans f.infinityBits_lt_signBit
    have hdecode := fun s => decode_withSign_finiteBits s hc
    refine ⟨f.withSign (decide (v < 0)) (f.finiteBits m e), withSign_lt_patternCount _ hsign, _, m,
      e, hdecode _, ?_⟩
    rw [hdecode, Datum.value, ← hvalue]
    by_cases hv : v < 0
    · simp [hv, signed, abs_of_neg hv]
    · simp [hv, signed, abs_of_nonneg (not_lt.mp hv)]

theorem isValue_finite {m : Nat} {e : Int} (s : Bool) (hc : f.Canonical m e) :
    f.IsValue (Datum.finite s m e).value :=
  isValue_iff.mpr ⟨m, e, hc, by rw [Datum.value, abs_signed, abs_of_nonneg (by positivity)]⟩

theorem IsValue.neg (h : f.IsValue v) : f.IsValue (-v) := by
  obtain ⟨m, e, hc, hvalue⟩ := isValue_iff.mp h
  exact isValue_iff.mpr ⟨m, e, hc, by rw [abs_neg, hvalue]⟩

/-- A value of the format that none is closer than. -/
structure Closest (f : Format) (v w : ℚ) : Prop where
  isValue : f.IsValue w
  le : ∀ u, f.IsValue u → |v - w| ≤ |v - u|

theorem Closest.neg (h : f.Closest v w) : f.Closest (-v) (-w) := by
  refine ⟨h.isValue.neg, fun u hu => ?_⟩
  have hle := h.le (-u) hu.neg
  rwa [abs_neg_sub_neg, ← neg_neg u, abs_neg_sub_neg]

/-- The closest value to a value is that value. -/
theorem closest_self (h : f.IsValue v) : f.Closest v v :=
  ⟨h, fun u _ => by rw [sub_self, abs_zero]; exact abs_nonneg _⟩

/-! ## §3 Neighbours -/

/-- The next canonical form: the forms above are not before it. -/
theorem exists_succ {m M : Nat} {e E : Int} (hc : f.Canonical m e) (hM : f.Canonical M E)
    (hlt : (m * 2 ^ e : ℚ) < M * 2 ^ E) :
    ∃ m₁ e₁, f.Canonical m₁ e₁ ∧ (m₁ * 2 ^ e₁ : ℚ) = (m + 1) * 2 ^ e ∧
      (m₁ * 2 ^ e₁ : ℚ) ≤ M * 2 ^ E := by
  have hless := (finiteBits_lt_iff hc hM).mpr hlt
  have hfinite := hM.finite
  obtain ⟨m₁, e₁, hc₁, hsucc⟩ := exists_canonical (f := f) (n := f.finiteBits m e + 1) (by omega)
  refine ⟨m₁, e₁, hc₁, value_succ hc hc₁ hsucc.symm, ?_⟩
  by_contra hmore
  have hbefore := (finiteBits_lt_iff hM hc₁).mpr (not_le.mp hmore)
  omega

/-- The previous canonical form, after a gap that may be a narrower one: the forms below are not
beyond it. -/
theorem exists_pred {m : Nat} {e : Int} (hc : f.Canonical m e) (hpos : (0 : ℚ) < m * 2 ^ e) :
    ∃ m₁ e₁, f.Canonical m₁ e₁ ∧ (m * 2 ^ e : ℚ) = (m₁ + 1) * 2 ^ e₁ ∧
      (f.lowerGap m e * 2 ^ e : ℚ) = 2 * 2 ^ e₁ ∧
      ∀ M E, f.Canonical M E → (M * 2 ^ E : ℚ) < m * 2 ^ e → (M * 2 ^ E : ℚ) ≤ m₁ * 2 ^ e₁ := by
  have hfinite := hc.finite
  have hposbits := (value_pos_iff hc).mp hpos
  obtain ⟨m₁, e₁, hc₁, hpred⟩ := exists_canonical (f := f) (n := f.finiteBits m e - 1) (by omega)
  have hsucc : f.finiteBits m e = f.finiteBits m₁ e₁ + 1 := by omega
  refine ⟨m₁, e₁, hc₁, value_succ hc₁ hc hsucc, lowerGap_succ hc₁ hc hsucc, ?_⟩
  intro M E hM hbelow
  have hless := (finiteBits_lt_iff hM hc).mpr hbelow
  by_contra hmore
  have hbefore := (finiteBits_lt_iff hc₁ hM).mpr (not_le.mp hmore)
  omega

/-! ## §4 Rounding once -/

/-- No canonical form is closer to a number than the one whose rounding interval it is in. -/
theorem RoundsTo.abs_sub_le_abs_sub {m m' : Nat} {e e' : Int} (h : f.RoundsTo m e v)
    (hc : f.Canonical m e) (hc' : f.Canonical m' e') :
    |v - m * 2 ^ e| ≤ |v - m' * 2 ^ e'| := by
  rcases lt_trichotomy (m * 2 ^ e : ℚ) (m' * 2 ^ e') with hlt | heq | hgt
  · -- The interval ends half way to the next form, and the other form is not before that.
    obtain ⟨m₁, e₁, hc₁, hnext, hbeyond⟩ := exists_succ hc hc' hlt
    have hhigh := h.high
    have hmiddle := (abs_sub_lt_abs_sub_iff (v := v) hlt).not.mpr (by linarith)
    exact not_lt.mp hmiddle
  · rw [heq]
  · -- It starts half way from the previous form, and the other form is not beyond that.
    have hpos : (0 : ℚ) < m * 2 ^ e := lt_of_le_of_lt (by positivity) hgt
    obtain ⟨m₁, e₁, hc₁, hprevious, hgap, hlargest⟩ := exists_pred hc hpos
    have hbefore := hlargest m' e' hc' hgt
    have hlow := h.low
    by_contra hnear
    -- The lower form is strictly closer only before the middle.
    have hreflected : |-v - -(m' * 2 ^ e' : ℚ)| < |-v - -(m * 2 ^ e : ℚ)| := by
      rw [abs_neg_sub_neg, abs_neg_sub_neg]
      exact not_le.mp hnear
    have hmiddle := (abs_sub_lt_abs_sub_iff (neg_lt_neg hgt)).mp hreflected
    linarith

/-- Rounding does not go past a canonical form. -/
theorem Significand.le_finiteBits {r M : Nat} {last E : Int} (h : f.Significand v r last)
    (hc : f.Canonical M E) (hv : v ≤ M * 2 ^ E) :
    r + (last - f.leastExponent).toNat * f.fieldUnit ≤ f.finiteBits M E := by
  have hpow : (0 : ℚ) < 2 ^ last := by positivity
  have hleast := h.least
  rcases lt_trichotomy last E with hlt | rfl | hgt
  · -- A rounded significand is at most the least one of the next exponent.
    have hr : r ≤ 2 * f.fieldUnit := by
      have hless : (2 * r - 1 : ℚ) < 4 * f.fieldUnit :=
        lt_of_mul_lt_mul_right (by linarith [h.low, h.below]) hpow.le
      have hless' : (2 * r : ℚ) < 4 * f.fieldUnit + 1 := by linarith
      have hcast : 2 * r < 4 * f.fieldUnit + 1 := by exact_mod_cast hless'
      omega
    have hleading : f.fieldUnit ≤ M := by
      have := hc.leading
      omega
    have hfields := Nat.mul_le_mul_right f.fieldUnit
      (show (last - f.leastExponent).toNat + 1 ≤ (E - f.leastExponent).toNat by omega)
    rw [Nat.add_mul, Nat.one_mul] at hfields
    unfold finiteBits
    omega
  · have hle : (2 * r - 1 : ℚ) ≤ 2 * M := le_of_mul_le_mul_right (by linarith [h.low]) hpow
    have hle' : (2 * r : ℚ) ≤ 2 * M + 1 := by linarith
    have hcast : 2 * r ≤ 2 * M + 1 := by exact_mod_cast hle'
    unfold finiteBits
    omega
  · -- A larger exponent is that of a larger number.
    have habove := h.above (hc.least.trans_lt hgt)
    have hM : (M : ℚ) < 2 * f.fieldUnit := by exact_mod_cast hc.below
    have hexp : (2 : ℚ) * 2 ^ E ≤ 2 ^ last := by
      rw [← zpow_one_add₀ (by norm_num)]
      exact zpow_le_zpow_right₀ (by norm_num) (by omega)
    have hpowE : (0 : ℚ) < 2 ^ E := by positivity
    have hunit : (0 : ℚ) < f.fieldUnit := by exact_mod_cast f.fieldUnit_pos
    have hcontra : (M * 2 ^ E : ℚ) < f.fieldUnit * 2 ^ last := by
      calc (M * 2 ^ E : ℚ) < 2 * f.fieldUnit * 2 ^ E := by gcongr
        _ = f.fieldUnit * (2 * 2 ^ E) := by ring
        _ ≤ f.fieldUnit * 2 ^ last := by gcongr
    linarith

/-- A number in the range of a format is rounded to a value of it, to one that none is closer
than, and stays within every bound that is a value. -/
theorem exists_closest (s : Bool) {m M : Nat} {q E : Int} (hM : f.Canonical M E)
    (hle : (m * 2 ^ q : ℚ) ≤ M * 2 ^ E) :
    ∃ m' e', f.Canonical m' e' ∧
      f.ofDatum (.finite s m q) = f.withSign s (f.finiteBits m' e') ∧
      (m' * 2 ^ e' : ℚ) ≤ M * 2 ^ E ∧
      f.Closest (Datum.finite s m q).value (Datum.finite s m' e').value := by
  rcases Nat.eq_zero_or_pos m with rfl | hm
  · have hbits : f.finiteBits 0 f.leastExponent = 0 := by
      rw [finiteBits, Int.sub_self, Int.toNat_zero, Nat.zero_mul]
    have hzero : (Datum.finite s 0 q).value = (Datum.finite s 0 f.leastExponent).value := by
      simp [Datum.value]
    refine ⟨0, f.leastExponent, f.canonical_zero, ?_, ?_, ?_⟩
    · rw [hbits, ofDatum, nearest, if_pos rfl]
    · rw [Nat.cast_zero, zero_mul]
      positivity
    · rw [hzero]
      exact closest_self (isValue_finite s f.canonical_zero)
  · obtain ⟨r, last, hr, hnearest⟩ := f.exists_significand s hm Nat.one_pos q
    rw [Nat.cast_one, div_one] at hr
    have hbound := hr.le_finiteBits hM hle
    have hinfinite := hM.finite
    rw [Nat.min_eq_left (by omega)] at hnearest
    obtain ⟨m', e', hc, hbits⟩ := exists_canonical (hbound.trans_lt hinfinite)
    have hrounds := roundsTo_of_significand hc hr hbits
    refine ⟨m', e', hc, ?_, ?_, isValue_finite s hc, fun u hu => ?_⟩
    · rw [ofDatum, hnearest, hbits]
    · by_contra hmore
      have := (finiteBits_lt_iff hM hc).mpr (not_le.mp hmore)
      omega
    · -- Magnitudes are not further apart than the numbers.
      obtain ⟨n, k, hn, hu⟩ := isValue_iff.mp hu
      have habs : |(Datum.finite s m q).value| = m * 2 ^ q := by
        rw [Datum.value, abs_signed, abs_of_nonneg (by positivity)]
      calc |(Datum.finite s m q).value - (Datum.finite s m' e').value|
          = |(m * 2 ^ q - m' * 2 ^ e' : ℚ)| := by
            rw [Datum.value, Datum.value, signed_sub, abs_signed]
        _ ≤ |(m * 2 ^ q - n * 2 ^ k : ℚ)| := hrounds.abs_sub_le_abs_sub hc hn
        _ ≤ |(Datum.finite s m q).value - u| := by
            rw [← habs, ← hu]
            exact abs_abs_sub_abs_le_abs_sub _ _

/-! ## §5 Rounding twice -/

/-- Half way between neighbouring half values there is a single. -/
theorem isValue_middle {m : Nat} {e : Int} (hc : half.Canonical m e) (s : Bool) :
    single.IsValue (signed s ((m * 2 ^ e + (m + 1) * 2 ^ e) / 2)) := by
  have hbelow : m < 2048 := hc.below
  have hleast : -24 ≤ e := hc.least
  have hexp : e ≤ 6 := by
    have hfinite := hc.finite
    simp only [finiteBits, leastExponent, fieldUnit, infinityBits] at hfinite
    omega
  -- The middle takes one bit more than a half value, at an exponent that is one lower.
  have hmiddle : ((m * 2 ^ e + (m + 1) * 2 ^ e) / 2 : ℚ) =
      ((2 * m + 1 : Nat) : Int) * 2 ^ (e - 1) := by
    rw [zpow_sub_one₀ (by norm_num)]
    push_cast
    ring
  have hrepresentable : Machine.Representable (((2 * m + 1 : Nat) : Int) * 2 ^ (e - 1)) := by
    refine Machine.representable_of ?_ (by omega) ?_
    · rw [abs_of_nonneg (by positivity)]
      omega
    · rw [abs_of_nonneg (by positivity)]
      have hm : (((2 * m + 1 : Nat) : Int) : ℚ) ≤ 4096 := by exact_mod_cast (by omega)
      have hpow : (2 : ℚ) ^ (e - 1) ≤ 2 ^ (5 : Int) := zpow_le_zpow_right₀ (by norm_num) (by omega)
      calc (((2 * m + 1 : Nat) : Int) * 2 ^ (e - 1) : ℚ) ≤ 4096 * 2 ^ (5 : Int) := by gcongr
        _ ≤ 2 ^ 104 := by norm_num
  obtain ⟨m', e', hc', hvalue⟩ := hrepresentable
  rw [isValue_iff, abs_signed, hmiddle]
  exact ⟨m', e', hc', hvalue⟩

/-- Above a half value and up to a larger one there is a half value with a single half way to it. -/
theorem exists_next (hw : half.IsValue w) (hu : half.IsValue u) (hlt : w < u) :
    ∃ u', half.IsValue u' ∧ w < u' ∧ u' ≤ u ∧ single.IsValue ((w + u') / 2) := by
  obtain ⟨m, e, hc, hm⟩ := isValue_iff.mp hw
  obtain ⟨n, k, hc', hn⟩ := isValue_iff.mp hu
  rcases le_or_gt 0 w with hpos | hneg
  · -- Away from zero: the next magnitude.
    rw [abs_of_nonneg hpos] at hm
    rw [abs_of_pos (hpos.trans_lt hlt)] at hn
    rw [hm, hn] at hlt
    obtain ⟨m₁, e₁, hc₁, hnext, hle⟩ := exists_succ hc hc' hlt
    have hpow : (0 : ℚ) < 2 ^ e := by positivity
    refine ⟨m₁ * 2 ^ e₁, isValue_finite false hc₁, ?_, ?_, ?_⟩
    · rw [hnext, hm]
      linarith
    · rwa [hn]
    · rw [hnext, hm]
      exact isValue_middle hc false
  · -- Towards zero: the previous magnitude.
    rw [abs_of_neg hneg] at hm
    obtain ⟨m₁, e₁, hc₁, hprevious, -, hlargest⟩ := exists_pred hc (by linarith)
    have hpow : (0 : ℚ) < 2 ^ e₁ := by positivity
    have hw' : w = -((m₁ + 1) * 2 ^ e₁) := by linarith
    refine ⟨-(m₁ * 2 ^ e₁), isValue_finite true hc₁, by rw [hw']; linarith, ?_, ?_⟩
    · rcases le_or_gt 0 u with hu' | hu'
      · have hnonneg : (0 : ℚ) ≤ m₁ * 2 ^ e₁ := by positivity
        linarith
      · rw [abs_of_neg hu'] at hn
        have hbefore := hlargest n k hc' (by linarith)
        linarith
    · have hmiddle : (w + -(m₁ * 2 ^ e₁)) / 2 =
          signed true ((m₁ * 2 ^ e₁ + (m₁ + 1) * 2 ^ e₁) / 2) := by
        rw [hw', signed, if_pos rfl]
        ring
      rw [hmiddle]
      exact isValue_middle hc₁ true

/-- Where a larger half value is closer than the one that rounding twice ends at, the single was
half way to a half value on the side of the number. -/
theorem exists_tie {s : ℚ} (hs : single.Closest v s) (hw : half.Closest s w) (hu : half.IsValue u)
    (hlt : w < u) (hcloser : |v - u| < |v - w|) :
    ∃ u', half.IsValue u' ∧ s - w = u' - s ∧ 0 < (v - s) * (u' - s) := by
  obtain ⟨u', hu', hwu', hle, hmiddle⟩ := exists_next hw.isValue hu hlt
  have hv : w + u < 2 * v := (abs_sub_lt_abs_sub_iff hlt).mp hcloser
  -- The second rounding says that the single is not beyond the middle,
  have hsecond : 2 * s ≤ w + u' := by
    by_contra hmore
    exact ((abs_sub_lt_abs_sub_iff hwu').mpr (not_le.mp hmore)).not_ge (hw.le u' hu')
  -- and the first, that it is not before it, for the middle is a single.
  have hfirst : (w + u') / 2 ≤ s := by
    by_contra hless
    have hcross : s + (w + u') / 2 < 2 * v := by linarith
    exact ((abs_sub_lt_abs_sub_iff (not_le.mp hless)).mpr hcross).not_ge (hs.le _ hmiddle)
  have hs' : 2 * s = w + u' := by linarith
  exact ⟨u', hu', by linarith, mul_pos (by linarith) (by linarith)⟩

/-- Rounding twice ends at a closest half value unless the single is half way to a half value on the
side of the number. -/
theorem Closest.twice_iff {s : ℚ} (hs : single.Closest v s) (hw : half.Closest s w) :
    half.Closest v w ↔
      ∀ u, half.IsValue u → s - w = u - s → (v - s) * (u - s) ≤ 0 := by
  constructor
  · intro hclosest u hu hmiddle
    by_contra hpos
    have hle := hclosest.le u hu
    -- The number and the other half value are on the same side of the middle.
    rcases pos_and_pos_or_neg_and_neg_of_mul_pos (not_le.mp hpos) with ⟨hv, hside⟩ | ⟨hv, hside⟩
    · have hcloser := (abs_sub_lt_abs_sub_iff (v := v) (w := w) (u := u) (by linarith)).mpr
        (by linarith)
      exact hcloser.not_ge hle
    · have hcloser := (abs_sub_lt_abs_sub_iff (v := -v) (w := -w) (u := -u) (by linarith)).mpr
        (by linarith)
      rw [abs_neg_sub_neg, abs_neg_sub_neg] at hcloser
      exact hcloser.not_ge hle
  · intro htie
    refine ⟨hw.isValue, fun u hu => ?_⟩
    by_contra hnot
    have hcloser : |v - u| < |v - w| := not_le.mp hnot
    rcases lt_trichotomy w u with hlt | rfl | hgt
    · obtain ⟨u', hu', hmiddle, hpos⟩ := exists_tie hs hw hu hlt hcloser
      exact hpos.not_ge (htie u' hu' hmiddle)
    · exact lt_irrefl _ hcloser
    · -- Below, everything is reflected.
      have hreflected : |-v - -u| < |-v - -w| := by
        rwa [abs_neg_sub_neg, abs_neg_sub_neg]
      obtain ⟨u', hu', hmiddle, hpos⟩ :=
        exists_tie hs.neg hw.neg hu.neg (neg_lt_neg hgt) hreflected
      have hle := htie (-u') hu'.neg (by linarith)
      have hsame : (-v - -s) * (u' - -s) = (v - s) * (-u' - s) := by ring
      linarith

end Format

end CommonLut.Binary
