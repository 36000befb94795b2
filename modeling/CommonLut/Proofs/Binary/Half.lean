import CommonLut.Proofs.Binary.Narrowing
import CommonLut.Proofs.Binary.Nearest
import CommonLut.Proofs.Binary.Value

/-!
# Half floats among the machine singles

Every half value is a machine single, the machine compares the two like the patterns, and the half
pattern of a half value is its own. A single between two half values differs from the nearest one
by something that the format of singles has, so the distance to it, and the quotient of that
distance by the gap between the two, are computed without rounding.

Main statements: `Half.same_toFloat32`, `Half.toFloat32_lt_iff`, `Half.ofFloat32_toFloat32`,
`Half.Nearest.residual`.
-/

namespace CommonLut.Binary

open Machine

namespace Format

/-- A value is at most half a unit away from what it rounds to. -/
theorem RoundsTo.abs_sub_le {f : Format} {m : Nat} {e : Int} {v : ℚ} (h : f.RoundsTo m e v) :
    2 * |v - m * 2 ^ e| ≤ 2 ^ e := by
  have hgap := f.lowerGap_le m e
  have hpow : (0 : ℚ) < 2 ^ e := by positivity
  have hlow := h.low
  have hhigh := h.high
  have hlow' : (4 * m - 2) * 2 ^ e ≤ 4 * v := by nlinarith
  rcases abs_cases (v - m * 2 ^ e) with ⟨heq, -⟩ | ⟨heq, -⟩ <;> rw [heq] <;> linarith

end Format

namespace Half

/-! ## §1 Widening -/

/-- Whether a half pattern is that of a number. -/
def IsNumber (h : UInt16) : Prop := ∀ s p, half.decode h.toNat ≠ .nan s p

variable {h h' : UInt16}

theorem same_toFloat32 (hh : IsNumber h) :
    (single.decode (toFloat32 h).toBits.toNat).Same (half.decode h.toNat) := by
  have hlt : h.toNat < half.patternCount := h.toNat_lt
  have hwide : half.convert single h.toNat < single.patternCount :=
    Format.ofDatum_lt_patternCount (by decide) hlt (Datum.Same.refl _)
  have hsame : (single.decode (half.convert single h.toNat)).Same (half.decode h.toNat) :=
    Format.decode_ofDatum_same (by decide) hlt (Datum.Same.refl _)
  have hnat : (UInt32.ofNat (half.convert single h.toNat)).toNat = half.convert single h.toNat :=
    UInt32.toNat_ofNat_of_lt' hwide
  have hbits := Single.toBits_ofBits (b := UInt32.ofNat (half.convert single h.toNat)) (by
    rw [hnat]
    exact ne_nan_of_same hsame hh)
  rw [toFloat32, hbits, hnat]
  exact hsame

theorem isNaN_toFloat32 : (toFloat32 h).isNaN = false ↔ IsNumber h := by
  refine ⟨fun hx s p hnan => ?_, fun hh =>
    Single.isNaN_eq_false (ne_nan_of_same (same_toFloat32 hh) hh)⟩
  have hlt : h.toNat < half.patternCount := h.toNat_lt
  have hwide : half.convert single h.toNat < single.patternCount :=
    Format.ofDatum_lt_patternCount (by decide) hlt (Datum.Same.refl _)
  have hnat : (UInt32.ofNat (half.convert single h.toNat)).toNat = half.convert single h.toNat :=
    UInt32.toNat_ofNat_of_lt' hwide
  -- What is no number stays so, and the machine has one pattern for it.
  obtain ⟨s', p', hnan'⟩ : ∃ s' p', single.decode (half.convert single h.toNat) = .nan s' p' := by
    have hsame : (single.decode (half.convert single h.toNat)).Same (half.decode h.toNat) :=
      Format.decode_ofDatum_same (by decide) hlt (Datum.Same.refl _)
    rw [hnan] at hsame
    exact ⟨s, hsame.exists_nan⟩
  have hbits : (toFloat32 h).toBits = Single.quietNaN :=
    Single.toBits_ofBits_of_nan (by rw [hnat]; exact hnan')
  refine Single.decode_ne_nan hx false
    (Single.quietNaN.toNat % single.fieldUnit * single.payloadUnit) ?_
  rw [hbits]
  decide

/-- The machine compares half values like their patterns. -/
theorem toFloat32_lt_iff (hh : IsNumber h) (hh' : IsNumber h') :
    toFloat32 h < toFloat32 h' ↔ half.rank h.toNat < half.rank h'.toNat := by
  rw [Single.compare_place (isNaN_toFloat32.mpr hh) (isNaN_toFloat32.mpr hh'),
    (same_toFloat32 hh).place_eq, (same_toFloat32 hh').place_eq,
    Format.place_lt_iff h.toNat_lt h'.toNat_lt hh hh']

/-- The nearest half pattern of a half value is its own. -/
theorem ofFloat32_toFloat32 (hh : IsNumber h) : ofFloat32 (toFloat32 h) = h := by
  have hlt : h.toNat < half.patternCount := h.toNat_lt
  have hback : single.convert half (toFloat32 h).toBits.toNat = h.toNat := by
    rw [Format.convert, Format.ofDatum_of_same le_rfl hlt (same_toFloat32 hh),
      Format.ofDatum_decode hlt hh]
  rw [ofFloat32, hback, UInt16.ofNat_toNat]

/-! ## §2 The nearest half value -/

/-- Magnitudes up to infinity are those of numbers. -/
theorem isNumber_of_le {s : Bool} {n : Nat} (hn : n ≤ half.infinityBits)
    (hh : h.toNat = half.withSign s n) : IsNumber h := by
  rw [IsNumber, hh]
  exact Format.decode_withSign_ne_nan s hn

theorem value_toFloat32 {s : Bool} {m : Nat} {e : Int} (hc : half.Canonical m e)
    (hh : h.toNat = half.withSign s (half.finiteBits m e)) :
    (toFloat32 h).isFinite = true ∧
      Single.value (toFloat32 h) = (Datum.finite s m e).value := by
  have hsame := same_toFloat32 (isNumber_of_le hc.finite.le hh)
  rw [hh, Format.decode_withSign_finiteBits s hc] at hsame
  obtain ⟨m', e', hdecode⟩ := hsame.exists_finite
  exact ⟨Single.isFinite_of_decode hdecode, hsame.value_eq⟩

/-- The half pattern of an infinity is widened to that infinity. -/
theorem decode_toFloat32_infinity {s : Bool} (hh : h.toNat = half.withSign s half.infinityBits) :
    single.decode (toFloat32 h).toBits.toNat = .infinite s := by
  have hsame := same_toFloat32 (isNumber_of_le le_rfl hh)
  rw [hh, Format.decode_withSign_infinity] at hsame
  exact hsame.eq_infinite

/-- A finite single with the magnitude of its nearest half pattern, which may be that of
infinity. -/
structure Rounded (x : Float32) (s : Bool) (m : Nat) (e : Int) (magnitude : Nat) : Prop where
  canonical : single.Canonical m e
  value : Single.value x = (Datum.finite s m e).value
  le : magnitude ≤ half.infinityBits
  nearest : half.nearest s m 1 e = half.withSign s magnitude
  pattern : (ofFloat32 x).toNat = half.withSign s magnitude

theorem exists_rounded {x : Float32} (hx : x.isFinite = true) :
    ∃ s m e magnitude, Rounded x s m e magnitude := by
  obtain ⟨s, m, e, hc, hbits⟩ := Single.exists_canonical hx
  have hdecode := Format.decode_withSign_finiteBits s hc
  have hsign := half.infinityBits_add_fieldUnit
  have hunit := half.fieldUnit_pos
  obtain ⟨magnitude, hle, hnearest⟩ := half.exists_nearest_eq s m 1 e
  refine ⟨s, m, e, magnitude, hc, ?_, hle, hnearest, ?_⟩
  · rw [Single.value, hbits, hdecode]
  · have hlt : half.withSign s magnitude < half.patternCount :=
      Format.withSign_lt_patternCount s (by omega)
    rw [ofFloat32, Format.convert, hbits, hdecode, Format.ofDatum, hnearest]
    exact UInt16.toNat_ofNat_of_lt' hlt

/-- What a single and its nearest half pattern have in common, where the pattern is finite. -/
structure Nearest (x : Float32) (s : Bool) (m : Nat) (e : Int) (m' : Nat) (e' : Int) : Prop where
  canonical : single.Canonical m e
  canonical' : half.Canonical m' e'
  value : Single.value x = (Datum.finite s m e).value
  pattern : (ofFloat32 x).toNat = half.withSign s (half.finiteBits m' e')
  rounds : 0 < m → half.RoundsTo m' e' (m * 2 ^ e)
  zero : m = 0 → m' = 0

theorem exists_nearest {x : Float32} (hx : x.isFinite = true)
    (hbase : (toFloat32 (ofFloat32 x)).isFinite = true) : ∃ s m e m' e', Nearest x s m e m' e' := by
  obtain ⟨s, m, e, magnitude, hc, hvalue, hle, hnearest, hpattern⟩ := exists_rounded hx
  -- Infinity would be widened to infinity.
  have hfinite : magnitude < half.infinityBits := by
    refine hle.lt_of_ne fun heq => ?_
    subst heq
    have hinfinite := decode_toFloat32_infinity hpattern
    obtain ⟨t, n, q, hcn, hn⟩ := Single.exists_canonical hbase
    rw [hn, Format.decode_withSign_finiteBits t hcn] at hinfinite
    cases hinfinite
  obtain ⟨m', e', hc', rfl⟩ := Format.exists_canonical hfinite
  refine ⟨s, m, e, m', e', hc, hc', hvalue, hpattern, fun hm => ?_, ?_⟩
  · have hrounds := Format.roundsTo_of_nearest hm Nat.one_pos hc' hnearest
    rwa [Nat.cast_one, div_one] at hrounds
  · rintro rfl
    have hzero : half.withSign s 0 = half.withSign s (half.finiteBits m' e') := by
      rw [← hnearest, Format.nearest, if_pos rfl]
    exact Nat.eq_zero_of_add_eq_zero_right (Format.withSign_inj hzero).symm

/-- Half way between the largest finite half value and the power of two after it, rounding starts to
give infinity. -/
theorem significand_lt_iff {v : ℚ} {r : Nat} {last : Int} (h : half.Significand v r last) :
    r + (last - half.leastExponent).toNat * half.fieldUnit < half.infinityBits ↔ v < 65520 := by
  obtain ⟨hleast, hbelow, habove, hlow, hhigh, hodd⟩ := h
  simp only [Format.leastExponent, Format.fieldUnit, Format.infinityBits] at *
  have hstep {j k : Int} (hjk : j ≤ k) : (2 : ℚ) ^ j ≤ 2 ^ k :=
    zpow_le_zpow_right₀ (by norm_num) hjk
  have hpow : (0 : ℚ) < 2 ^ last := by positivity
  rcases lt_trichotomy last 5 with hlast | rfl | hlast
  · -- Below the largest exponent every significand is finite.
    have hunit : (2 : ℚ) ^ last ≤ 2 ^ (4 : Int) := hstep (by omega)
    have hr : (2 * r - 1 : ℚ) < 4 * 1024 := by
      refine lt_of_mul_lt_mul_right ?_ hpow.le
      push_cast at hbelow
      linarith
    have hr' : (2 * r : ℚ) < 4097 := by linarith
    have hcast : 2 * r < 4097 := by exact_mod_cast hr'
    norm_num at hunit hbelow
    exact iff_of_true (by omega) (by linarith)
  · norm_num at hlow hhigh hodd
    constructor
    · intro hbits
      rcases (by omega : r ≤ 2046 ∨ r = 2047) with hr | rfl
      · have hcast : (r : ℚ) ≤ 2046 := by exact_mod_cast hr
        linarith
      · have := (hodd (by decide)).2
        norm_num at this
        linarith
    · intro hv
      have hr : (2 * r : ℚ) < 4096 := by linarith
      have hcast : 2 * r < 4096 := by exact_mod_cast hr
      change r + 29 * 1024 < 31744
      omega
  · -- Above it there are none.
    have hunit : (2 : ℚ) ^ (6 : Int) ≤ 2 ^ last := hstep (by omega)
    have hv := habove (by omega)
    push_cast at hv
    have hr : (1024 : ℚ) ≤ r + 1 / 2 := by
      refine le_of_mul_le_mul_right ?_ hpow
      linarith
    have hcast : 1024 ≤ r := by
      have hr' : (2047 : ℚ) ≤ 2 * r := by linarith
      have : 2047 ≤ 2 * r := by exact_mod_cast hr'
      omega
    norm_num at hunit
    exact iff_of_false (by omega) (by linarith)

section
variable {x : Float32} {s : Bool} {m magnitude : Nat} {e : Int}

theorem Rounded.lt_iff (h : Rounded x s m e magnitude) :
    magnitude < half.infinityBits ↔ (m * 2 ^ e : ℚ) < 65520 := by
  have hnearest := h.nearest
  rcases Nat.eq_zero_or_pos m with rfl | hm
  · rw [Format.nearest, if_pos rfl] at hnearest
    obtain rfl := Format.withSign_inj hnearest
    exact iff_of_true (by decide) (by norm_num)
  · obtain ⟨r, last, hr, hrounded⟩ := half.exists_significand s hm Nat.one_pos e
    obtain rfl := Format.withSign_inj (hnearest.symm.trans hrounded)
    rw [Nat.cast_one, div_one] at hr
    rw [← significand_lt_iff hr]
    omega

/-- Within the range of the half values the nearest pattern is finite. -/
theorem isFinite_of_abs_lt (hx : x.isFinite = true) (h : |Single.value x| < 65520) :
    (toFloat32 (ofFloat32 x)).isFinite = true := by
  obtain ⟨s, m, e, magnitude, hrounded⟩ := exists_rounded hx
  have hvalue : |Single.value x| = m * 2 ^ e := by
    rw [hrounded.value]
    exact (abs_signed s _).trans (abs_of_nonneg (by positivity))
  obtain ⟨m', e', hc', hbits⟩ := Format.exists_canonical (hrounded.lt_iff.mpr (hvalue ▸ h))
  exact (value_toFloat32 hc' (hbits ▸ hrounded.pattern)).1

/-- Beyond it the nearest pattern is that of an infinity. -/
theorem ofFloat32_of_le_signed (hx : x.isFinite = true) (h : 65520 ≤ signed s (Single.value x)) :
    (ofFloat32 x).toNat = half.withSign s half.infinityBits := by
  obtain ⟨t, m, e, magnitude, hrounded⟩ := exists_rounded hx
  have hnonneg : (0 : ℚ) ≤ m * 2 ^ e := by positivity
  have hvalue := hrounded.value
  rw [hvalue] at h
  obtain ⟨rfl, hlarge⟩ : s = t ∧ (65520 : ℚ) ≤ m * 2 ^ e := by
    cases s <;> cases t <;> simp only [Datum.value, signed, neg_neg, Bool.false_eq_true, if_true,
      if_false, reduceCtorEq, false_and, true_and] at h ⊢ <;> linarith
  have hinfinite : magnitude = half.infinityBits :=
    hrounded.le.antisymm (Nat.le_of_not_lt fun hlt => (hrounded.lt_iff.mp hlt).not_ge hlarge)
  rw [hrounded.pattern, hinfinite]

/-- The finite half values are within their range. -/
theorem abs_value_toFloat32_lt (hh : (toFloat32 h).isFinite = true) :
    |Single.value (toFloat32 h)| < 65520 := by
  by_contra hge
  obtain ⟨s, hs⟩ : ∃ s, 65520 ≤ signed s (Single.value (toFloat32 h)) := by
    rcases le_abs'.mp (not_lt.mp hge) with hle | hle
    · exact ⟨true, le_neg.mpr hle⟩
    · exact ⟨false, hle⟩
  have hpattern := ofFloat32_of_le_signed hh hs
  rw [ofFloat32_toFloat32 (isNaN_toFloat32.mp (Single.isNaN_of_isFinite hh))] at hpattern
  have hinfinite := Single.isInf_of_decode (decode_toFloat32_infinity hpattern)
  rw [Single.isInf_of_isFinite hh] at hinfinite
  cases hinfinite

end

/-! ## §3 Distances -/

section

variable {x : Float32} {s : Bool} {m m' : Nat} {e e' : Int}

theorem Nearest.pos (h : Nearest x s m e m' e') (hne : (m * 2 ^ e : ℚ) ≠ m' * 2 ^ e') : 0 < m := by
  rcases Nat.eq_zero_or_pos m with rfl | hm
  · rw [h.zero rfl] at hne
    exact absurd (by simp) hne
  · exact hm

/-- A value that is not a half value is finer than the half values around it. -/
theorem Nearest.exponent_le (h : Nearest x s m e m' e') (hne : (m * 2 ^ e : ℚ) ≠ m' * 2 ^ e') :
    e ≤ e' := by
  by_contra hlt
  obtain ⟨k, hk⟩ : ∃ k : Nat, e = e' + k := ⟨(e - e').toNat, by omega⟩
  have hclose := (h.rounds (h.pos hne)).abs_sub_le
  have hpow : (0 : ℚ) < 2 ^ e' := by positivity
  -- The distance would be a whole number of units that is at most one half.
  have hwhole : (m * 2 ^ e - m' * 2 ^ e' : ℚ) = ((m * 2 ^ k - m' : Int) : ℚ) * 2 ^ e' := by
    rw [hk, zpow_add₀ (by norm_num), zpow_natCast]
    push_cast
    ring
  rw [hwhole, abs_mul, abs_of_pos hpow] at hclose
  have hunits : 2 * |((m * 2 ^ k - m' : Int) : ℚ)| ≤ 1 :=
    le_of_mul_le_mul_right (by linarith) hpow
  have hcast : 2 * |(m * 2 ^ k - m' : Int)| ≤ 1 := by exact_mod_cast hunits
  have hnonneg := abs_nonneg (m * 2 ^ k - m' : Int)
  have hzero : (m * 2 ^ k - m' : Int) = 0 := abs_eq_zero.mp (by omega)
  rw [hzero, Int.cast_zero, zero_mul, sub_eq_zero] at hwhole
  exact hne hwhole

/-- The distance of a value from the nearest half value has no more bits than the value. -/
theorem Nearest.abs_sub_le (h : Nearest x s m e m' e') (hne : (m * 2 ^ e : ℚ) ≠ m' * 2 ^ e') :
    |(m * 2 ^ e - m' * 2 ^ e' : ℚ)| ≤ m * 2 ^ e := by
  have hclose := (h.rounds (h.pos hne)).abs_sub_le
  have hpow : (0 : ℚ) < 2 ^ e := by positivity
  have hpow' : (0 : ℚ) < 2 ^ e' := by positivity
  rcases Nat.eq_zero_or_pos m' with rfl | hm'
  · rw [Nat.cast_zero, zero_mul, sub_zero, abs_of_nonneg (by positivity)]
  · have hone : (1 : ℚ) ≤ m' := by exact_mod_cast hm'
    rcases abs_cases (m * 2 ^ e - m' * 2 ^ e' : ℚ) with ⟨heq, -⟩ | ⟨heq, -⟩ <;>
      rw [heq] at hclose ⊢ <;> nlinarith

/-- The exponents of a value and of the nearest half value are not far apart. -/
theorem Nearest.exponent_sub (h : Nearest x s m e m' e') (hne : (m * 2 ^ e : ℚ) ≠ m' * 2 ^ e') :
    -149 ≤ e - e' := by
  have hleast : -149 ≤ e := h.canonical.least
  rcases le_or_gt e' 0 with he' | he'
  · omega
  · have hleading : 2 ^ 10 ≤ m' := h.canonical'.leading.resolve_right (by
      simp only [Format.leastExponent]
      omega)
    have hbelow : (m : ℚ) < 2 ^ 24 := by exact_mod_cast h.canonical.below
    have hmany : (2 : ℚ) ^ 10 ≤ m' := by exact_mod_cast hleading
    have hclose := (h.rounds (h.pos hne)).abs_sub_le
    have hpow : (0 : ℚ) < 2 ^ e := by positivity
    have hpow' : (0 : ℚ) < 2 ^ e' := by positivity
    -- The half value has its leading bit and the value is more than half of it.
    have hbig : (2 : ℚ) ^ (9 : Int) * 2 ^ e' < 2 ^ (24 : Int) * 2 ^ e := by
      have hsmall : (m * 2 ^ e : ℚ) < 2 ^ 24 * 2 ^ e := by gcongr
      have hlarge : (2 : ℚ) ^ 10 * 2 ^ e' ≤ m' * 2 ^ e' := by gcongr
      norm_num at hsmall hlarge ⊢
      rcases abs_cases (m * 2 ^ e - m' * 2 ^ e' : ℚ) with ⟨heq, hsign⟩ | ⟨heq, hsign⟩ <;>
        rw [heq] at hclose <;> linarith
    rw [← zpow_add₀ (by norm_num), ← zpow_add₀ (by norm_num)] at hbig
    have := (zpow_lt_zpow_iff_right₀ (by norm_num : (1 : ℚ) < 2)).mp hbig
    omega

/-- The distance as a whole number of units of the value. -/
theorem Nearest.residual (h : Nearest x s m e m' e') (hne : (m * 2 ^ e : ℚ) ≠ m' * 2 ^ e') :
    ∃ n : Int, (m * 2 ^ e - m' * 2 ^ e' : ℚ) = n * 2 ^ e ∧ |n| < 2 ^ 24 := by
  have hexp := h.exponent_le hne
  have hpow : (0 : ℚ) < 2 ^ e := by positivity
  have hwhole : (m * 2 ^ e - m' * 2 ^ e' : ℚ) =
      ((m - m' * 2 ^ (e' - e).toNat : Int) : ℚ) * 2 ^ e := by
    rw [zpow_eq_pow_mul hexp]
    push_cast
    ring
  refine ⟨_, hwhole, ?_⟩
  have hle := h.abs_sub_le hne
  rw [hwhole, abs_mul, abs_of_pos hpow] at hle
  have hunits := le_of_mul_le_mul_right hle hpow
  have hcast : |(m - m' * 2 ^ (e' - e).toNat : Int)| ≤ m := by exact_mod_cast hunits
  have hbelow : m < 2 ^ 24 := h.canonical.below
  omega

end

end Half

end CommonLut.Binary
