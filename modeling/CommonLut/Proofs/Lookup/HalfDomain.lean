import CommonLut.Lookup.HalfDomain
import CommonLut.Proofs.Binary.Half

/-!
# Interpolation between neighbouring half values

A finite position that is no half value lies strictly between the half value nearest to it and the
neighbour that interpolation takes, and no half value lies between those two. The pattern of the
neighbour is one step away in the order of the half values, which is found from the sign of the
pattern, its magnitude and the side of the position. The gap between the two is a power of two, so
the machine computes the weight without rounding.

Main definitions: `HalfDomain.neighborOf`, `HalfDomain.weight`, `HalfDomain.Brackets`,
`HalfDomain.Gap`.
Main statements: `HalfDomain.between`, `SampleArray.halfInterpolated_toFloat32`,
`SampleArray.halfInterpolated_brackets`.
-/

namespace CommonLut

open Binary Machine

namespace HalfDomain

/-! ## §1 The neighbour -/

section

variable {bits : UInt16} {s : Bool} {n : Nat}

theorem and_eq_zero (hbits : bits.toNat = half.withSign s n) (hn : n < half.infinityBits) :
    (bits &&& 0x7fff == 0) = decide (n = 0) := by
  have hmask : (bits &&& 0x7fff).toNat = bits.toNat % 2 ^ 15 := by
    rw [UInt16.toNat_and]
    exact Nat.and_two_pow_sub_one_eq_mod bits.toNat 15
  rw [Bool.eq_iff_iff, beq_iff_eq, decide_eq_true_iff, ← UInt16.toNat_inj, hmask, hbits]
  simp only [Format.infinityBits] at hn
  cases s <;> simp only [Format.withSign, Format.signBit, Bool.false_eq_true, if_true, if_false,
    UInt16.toNat_zero] <;> omega

/-- Away from zero the magnitude grows by one step. -/
theorem neighbor_outwards (hbits : bits.toNat = half.withSign s n) (hn : n < half.infinityBits)
    {base : Float32} (hsign : n ≠ 0 → decide (0.0 < base) = !s) :
    (neighbor bits base (!s)).toNat = half.withSign s (n + 1) := by
  unfold neighbor
  rw [and_eq_zero hbits hn]
  -- A zero of either sign is followed by the smallest subnormal of that sign.
  rcases Nat.eq_zero_or_pos n with rfl | hpos
  · cases s <;> rfl
  · have hroom : bits.toNat + 1 < 2 ^ 16 := by
      simp only [Format.infinityBits] at hn
      rw [hbits]
      cases s <;> simp only [Format.withSign, Format.signBit, Bool.false_eq_true, if_true,
        if_false] <;> omega
    rw [decide_eq_false hpos.ne', if_neg (by decide), hsign hpos.ne', beq_self_eq_true, if_pos rfl,
      UInt16.toNat_add, UInt16.toNat_one, Nat.mod_eq_of_lt hroom, hbits]
    cases s
    · rfl
    · exact Nat.add_assoc _ _ _

/-- Towards zero the magnitude shrinks by one step. -/
theorem neighbor_inwards (hbits : bits.toNat = half.withSign s n) (hn : n < half.infinityBits)
    (hpos : 0 < n) {base : Float32} (hsign : decide (0.0 < base) = !s) :
    (neighbor bits base s).toNat = half.withSign s (n - 1) := by
  unfold neighbor
  -- The magnitude is not zero, so the pattern is not that of a zero and one less does not wrap.
  have hone : (1 : UInt16) ≤ bits := by
    rw [UInt16.le_iff_toNat_le, hbits, UInt16.toNat_one]
    cases s
    · exact hpos
    · exact hpos.trans_le (Nat.le_add_left _ _)
  rw [and_eq_zero hbits hn, decide_eq_false hpos.ne', if_neg (by decide), hsign,
    if_neg (by cases s <;> decide), UInt16.toNat_sub_of_le _ _ hone, UInt16.toNat_one, hbits]
  cases s
  · rfl
  · exact Nat.add_sub_assoc hpos _

end

/-- The pattern that interpolation pairs with the one nearest to a position. -/
def neighborOf (position : Float32) : UInt16 :=
  neighbor (Half.ofFloat32 position) (Half.toFloat32 (Half.ofFloat32 position))
    (decide (0.0 < position - Half.toFloat32 (Half.ofFloat32 position)))

/-- The fraction of the way from the nearest half value to its neighbour. -/
def weight (position : Float32) : Float32 :=
  (position - Half.toFloat32 (Half.ofFloat32 position)) /
    (Half.toFloat32 (neighborOf position) - Half.toFloat32 (Half.ofFloat32 position))

/-- A position lies strictly between two neighbouring half values, the patterns of which are one
step apart. -/
structure Brackets (position : Float32) (bits next : UInt16) : Prop where
  /-- The step does not wrap around. -/
  step : next.toNat = bits.toNat + 1 ∨ next.toNat + 1 = bits.toNat
  inside : Half.toFloat32 bits < position ∧ position < Half.toFloat32 next ∨
    Half.toFloat32 next < position ∧ position < Half.toFloat32 bits
  adjacent : ∀ h : UInt16,
    ¬ (Half.toFloat32 bits < Half.toFloat32 h ∧ Half.toFloat32 h < Half.toFloat32 next) ∧
      ¬ (Half.toFloat32 next < Half.toFloat32 h ∧ Half.toFloat32 h < Half.toFloat32 bits)

namespace Brackets

variable {position : Float32} {bits next h : UInt16}

/-- Either of the two may be the lower one. -/
theorem swap (hb : Brackets position bits next) : Brackets position next bits where
  step := hb.step.symm.imp Eq.symm Eq.symm
  inside := hb.inside.symm
  adjacent h := (hb.adjacent h).symm

/-- A half value that is not above the position is not above either of the two. -/
theorem le_of_le (hb : Brackets position bits next) (hnumber : (Half.toFloat32 h).isNaN = false)
    (hh : Half.toFloat32 h ≤ position) :
    Half.toFloat32 h ≤ Half.toFloat32 bits ∧ Half.toFloat32 h ≤ Half.toFloat32 next := by
  wlog horder : Half.toFloat32 bits < position ∧ position < Half.toFloat32 next
    generalizing bits next with hswap
  · exact (hswap hb.swap (hb.inside.resolve_left horder)).symm
  have hplaced := Scalar.placed_single
  obtain ⟨hlow, hhigh⟩ := horder
  obtain ⟨hbits, hposition⟩ := Single.isNaN_of_lt hlow
  have hnext := (Single.isNaN_of_lt hhigh).2
  have hless := hplaced.lt_of_le_of_lt hnumber hposition hnext hh hhigh
  exact ⟨(hplaced.not_lt hbits hnumber).mp fun hlt => (hb.adjacent h).1 ⟨hlt, hless⟩,
    hplaced.le_of_lt hnumber hnext hless⟩

/-- A half value that is not below the position is not below either of the two. -/
theorem ge_of_ge (hb : Brackets position bits next) (hnumber : (Half.toFloat32 h).isNaN = false)
    (hh : position ≤ Half.toFloat32 h) :
    Half.toFloat32 bits ≤ Half.toFloat32 h ∧ Half.toFloat32 next ≤ Half.toFloat32 h := by
  wlog horder : Half.toFloat32 bits < position ∧ position < Half.toFloat32 next
    generalizing bits next with hswap
  · exact (hswap hb.swap (hb.inside.resolve_left horder)).symm
  have hplaced := Scalar.placed_single
  obtain ⟨hlow, hhigh⟩ := horder
  obtain ⟨hbits, hposition⟩ := Single.isNaN_of_lt hlow
  have hnext := (Single.isNaN_of_lt hhigh).2
  have hless := hplaced.lt_of_lt_of_le hbits hposition hnumber hlow hh
  exact ⟨hplaced.le_of_lt hbits hnumber hless,
    (hplaced.not_lt hnumber hnext).mp fun hlt => (hb.adjacent h).1 ⟨hless, hlt⟩⟩

end Brackets

/-! ## §2 The half values around a position -/

/-- Patterns of neighbouring ranks have no half value between them. -/
theorem adjacent_of_rank {bits next : UInt16} (hbits : Half.IsNumber bits)
    (hnext : Half.IsNumber next) (hrank : |half.rank next.toNat - half.rank bits.toNat| = 1)
    (h : UInt16) :
    ¬ (Half.toFloat32 bits < Half.toFloat32 h ∧ Half.toFloat32 h < Half.toFloat32 next) ∧
      ¬ (Half.toFloat32 next < Half.toFloat32 h ∧ Half.toFloat32 h < Half.toFloat32 bits) := by
  constructor
  · rintro ⟨hlow, hhigh⟩
    have hh := Half.isNaN_toFloat32.mp (Single.isNaN_of_lt hhigh).1
    rw [Half.toFloat32_lt_iff hbits hh] at hlow
    rw [Half.toFloat32_lt_iff hh hnext] at hhigh
    rw [abs_of_pos (by omega)] at hrank
    omega
  · rintro ⟨hlow, hhigh⟩
    have hh := Half.isNaN_toFloat32.mp (Single.isNaN_of_lt hhigh).1
    rw [Half.toFloat32_lt_iff hnext hh] at hlow
    rw [Half.toFloat32_lt_iff hh hbits] at hhigh
    rw [abs_of_neg (by omega)] at hrank
    omega

theorem isFinite_zero : (0.0 : Float32).isFinite = true := by decide

theorem value_zero : Single.value 0.0 = 0 := by
  have hdecode : single.decode (0.0 : Float32).toBits.toNat = .finite false 0 (-149) := by decide
  rw [Single.value, hdecode]
  simp [Datum.value, signed]

theorem isFinite_half : (0.5 : Float32).isFinite = true := by decide

theorem value_half : Single.value 0.5 = 1 / 2 := by
  have hdecode : single.decode (0.5 : Float32).toBits.toNat = .finite false 8388608 (-24) := by
    decide
  rw [Single.value, hdecode]
  norm_num [Datum.value, signed]

/-- The sign of a value is that of its magnitude. -/
theorem decide_pos {y : Float32} {s : Bool} {v : ℚ} (hy : y.isFinite = true)
    (hvalue : Single.value y = signed s v) (hv : 0 < v) : decide (0.0 < y) = !s := by
  have hless := Single.lt_iff_value isFinite_zero hy
  rw [value_zero, hvalue] at hless
  cases s
  · exact decide_eq_true (hless.mpr hv)
  · exact decide_eq_false (hless.not.mpr (not_lt.mpr (neg_nonpos.mpr hv.le)))

/-! ## §3 Gaps -/

theorem representable_of_abs_eq {v w : ℚ} (h : Representable w) (habs : |v| = |w|) :
    Representable v := by
  obtain ⟨m, e, hc, hw⟩ := h
  exact ⟨m, e, hc, habs.trans hw⟩

/-- A value at most half way from the half value `b` to its neighbour `c`, on the side of `c`. -/
structure Gap (v b c : ℚ) (k : Int) : Prop where
  width : |c - b| = 2 ^ k
  near : 2 * |v - b| ≤ 2 ^ k
  side : 0 < (v - b) / (c - b)

namespace Gap

variable {v b c : ℚ} {k : Int}

theorem distance_ne (h : Gap v b c k) : c - b ≠ 0 := by
  rw [← abs_pos, h.width]
  positivity

theorem ne (h : Gap v b c k) : v ≠ b := by
  rintro rfl
  have hside := h.side
  rw [sub_self, zero_div] at hside
  exact hside.ne rfl

theorem inside (h : Gap v b c k) : b < v ∧ v < c ∨ c < v ∧ v < b := by
  have hnear := h.near
  rw [← h.width] at hnear
  rcases div_pos_iff.mp h.side with ⟨hv, hc⟩ | ⟨hv, hc⟩
  · rw [abs_of_pos hv, abs_of_pos hc] at hnear
    exact .inl ⟨by linarith, by linarith⟩
  · rw [abs_of_neg hv, abs_of_neg hc] at hnear
    exact .inr ⟨by linarith, by linarith⟩

theorem inside_signed (h : Gap v b c k) (s : Bool) :
    signed s b < signed s v ∧ signed s v < signed s c ∨
      signed s c < signed s v ∧ signed s v < signed s b := by
  cases s
  · exact h.inside
  · rcases h.inside with ⟨hlow, hhigh⟩ | ⟨hlow, hhigh⟩
    · exact .inr ⟨neg_lt_neg hhigh, neg_lt_neg hlow⟩
    · exact .inl ⟨neg_lt_neg hhigh, neg_lt_neg hlow⟩

theorem abs_ratio_le (h : Gap v b c k) : |(v - b) / (c - b)| ≤ 1 / 2 := by
  have hnear := h.near
  rw [abs_div, h.width, div_le_iff₀ (by positivity)]
  linarith

/-- Division by the width takes the exponent of the width off. -/
theorem abs_ratio (h : Gap v b c k) {n e : Int} (hn : v - b = n * 2 ^ e) :
    |(v - b) / (c - b)| = |(n * 2 ^ (e - k) : ℚ)| := by
  rw [abs_div, h.width, hn, abs_mul, abs_mul, abs_of_pos (by positivity : (0 : ℚ) < 2 ^ e),
    abs_of_pos (by positivity : (0 : ℚ) < 2 ^ (e - k)), zpow_sub₀ (by norm_num), mul_div_assoc]

theorem representable (h : Gap v b c k) (hleast : -149 ≤ k) (hk : k ≤ 104) :
    Representable (c - b) := by
  have hpow : (0 : ℚ) < 2 ^ k := by positivity
  have hone : (2 : ℚ) ^ k ≤ 2 ^ (104 : ℤ) := zpow_le_zpow_right₀ (by norm_num) hk
  refine representable_of_abs_eq (representable_of (n := 1) (q := k) (by norm_num) hleast ?_) ?_
  · rw [Int.cast_one, one_mul, abs_of_pos hpow]
    exact_mod_cast hone
  · rw [h.width, Int.cast_one, one_mul, abs_of_pos hpow]

end Gap

section

variable {x : Float32} {s : Bool} {m m' m'' : Nat} {e e' e'' : Int}

/-- Away from zero the gap is one unit of the nearest half value. -/
theorem gap_outwards (h : Half.Nearest x s m e m' e') (hlt : (m' * 2 ^ e' : ℚ) < m * 2 ^ e)
    (hc : half.Canonical m'' e'')
    (hsucc : half.finiteBits m'' e'' = half.finiteBits m' e' + 1) :
    Gap (m * 2 ^ e) (m' * 2 ^ e') (m'' * 2 ^ e'') e' := by
  have hpow : (0 : ℚ) < 2 ^ e' := by positivity
  have hdistance : (m'' * 2 ^ e'' - m' * 2 ^ e' : ℚ) = 2 ^ e' := by
    rw [Format.value_succ h.canonical' hc hsucc]
    ring
  refine ⟨?_, (h.rounds (h.pos hlt.ne')).abs_sub_le, ?_⟩
  · rw [hdistance, abs_of_pos hpow]
  · rw [hdistance]
    exact div_pos (sub_pos.mpr hlt) hpow

/-- Towards zero the gap is one unit of the next half value, which is half a unit of the nearest one
where that is a power of two. -/
theorem gap_inwards (h : Half.Nearest x s m e m' e') (hlt : (m * 2 ^ e : ℚ) < m' * 2 ^ e')
    (hc : half.Canonical m'' e'')
    (hsucc : half.finiteBits m' e' = half.finiteBits m'' e'' + 1) :
    Gap (m * 2 ^ e) (m' * 2 ^ e') (m'' * 2 ^ e'') e'' := by
  have hpow : (0 : ℚ) < 2 ^ e'' := by positivity
  have hdistance : (m'' * 2 ^ e'' - m' * 2 ^ e' : ℚ) = -2 ^ e'' := by
    rw [Format.value_succ hc h.canonical' hsucc]
    ring
  refine ⟨?_, ?_, ?_⟩
  · rw [hdistance, abs_neg, abs_of_pos hpow]
  · have hlow := (h.rounds (h.pos hlt.ne)).low
    have hwidth := Format.lowerGap_succ hc h.canonical' hsucc
    rw [abs_of_neg (sub_neg.mpr hlt)]
    linarith
  · rw [hdistance]
    exact div_pos_of_neg_of_neg (sub_neg.mpr hlt) (neg_neg_of_pos hpow)

end

/-! ## §4 Distances and the weight -/

section

variable {x : Float32} {s : Bool} {m m' : Nat} {e e' : Int}

/-- The half value nearest to a position. -/
theorem base_value (h : Half.Nearest x s m e m' e') :
    (Half.toFloat32 (Half.ofFloat32 x)).isFinite = true ∧
      Single.value (Half.toFloat32 (Half.ofFloat32 x)) = signed s (m' * 2 ^ e') :=
  Half.value_toFloat32 h.canonical' h.pattern

theorem base_sign (h : Half.Nearest x s m e m' e') (hpos : half.finiteBits m' e' ≠ 0) :
    decide (0.0 < Half.toFloat32 (Half.ofFloat32 x)) = !s :=
  decide_pos (base_value h).1 (base_value h).2
    ((Format.value_pos_iff h.canonical').mpr (Nat.pos_of_ne_zero hpos))

theorem exponent_le_five (h : Half.Nearest x s m e m' e') : e' ≤ 5 := by
  have hfinite := h.canonical'.finite
  have hleading := h.canonical'.leading
  have hleast := h.canonical'.least
  simp only [Format.finiteBits, Format.infinityBits, Format.fieldUnit, Format.leastExponent] at *
  omega

/-- The difference of a position and its nearest half value is exact. -/
theorem residual_value (h : Half.Nearest x s m e m' e') (hx : x.isFinite = true)
    (hne : (m * 2 ^ e : ℚ) ≠ m' * 2 ^ e') :
    (x - Half.toFloat32 (Half.ofFloat32 x)).isFinite = true ∧
      Single.value (x - Half.toFloat32 (Half.ofFloat32 x)) =
        signed s (m * 2 ^ e - m' * 2 ^ e') := by
  obtain ⟨hbase, hvalue⟩ := base_value h
  have hdifference : Single.value x - Single.value (Half.toFloat32 (Half.ofFloat32 x)) =
      signed s (m * 2 ^ e - m' * 2 ^ e') := by
    rw [h.value, hvalue]
    exact signed_sub s _ _
  -- The distance has no more bits than the position and is far below the largest value.
  have hrepresentable : Representable (m * 2 ^ e - m' * 2 ^ e') := by
    obtain ⟨n, hn, hbelow⟩ := h.residual hne
    have hclose := (h.rounds (h.pos hne)).abs_sub_le
    have hpow : (2 : ℚ) ^ e' ≤ 2 ^ (5 : ℤ) := zpow_le_zpow_right₀ (by norm_num) (exponent_le_five h)
    rw [hn] at hclose ⊢
    norm_num at hpow
    exact representable_of hbelow h.canonical.least (by linarith)
  rw [← hdifference]
  refine Single.sub_value hx hbase ?_
  rw [hdifference]
  exact representable_of_abs_eq hrepresentable (abs_signed s _)

/-- The weight is the exact quotient of the distance by the gap between the two half values. -/
theorem weight_value (h : Half.Nearest x s m e m' e') (hx : x.isFinite = true) {c : ℚ} {k : Int}
    (hgap : Gap (m * 2 ^ e) (m' * 2 ^ e') c k) (hleast : -24 ≤ k) (hk : k ≤ e')
    (hahead : (Half.toFloat32 (neighborOf x)).isFinite = true)
    (hvalue : Single.value (Half.toFloat32 (neighborOf x)) = signed s c) :
    (weight x).isFinite = true ∧
      Single.value (weight x) = (m * 2 ^ e - m' * 2 ^ e') / (c - m' * 2 ^ e') := by
  have hne := hgap.ne
  obtain ⟨hbase, hbasevalue⟩ := base_value h
  obtain ⟨hresidual, hresidualvalue⟩ := residual_value h hx hne
  have hfive := exponent_le_five h
  have hgapvalue : Single.value (Half.toFloat32 (neighborOf x)) -
      Single.value (Half.toFloat32 (Half.ofFloat32 x)) = signed s (c - m' * 2 ^ e') := by
    rw [hvalue, hbasevalue, signed_sub]
  obtain ⟨hdistance, hdistancevalue⟩ := Single.sub_value hahead hbase
    (hgapvalue ▸ representable_of_abs_eq (hgap.representable (by omega) (by omega))
      (abs_signed s _))
  rw [hgapvalue] at hdistancevalue
  -- The gap is a power of two, so the quotient has the bits of the distance.
  have hrepresentable : Representable ((m * 2 ^ e - m' * 2 ^ e') / (c - m' * 2 ^ e')) := by
    obtain ⟨n, hn, hbelow⟩ := h.residual hne
    have hexp := h.exponent_sub hne
    have hunits := hgap.abs_ratio hn
    refine representable_of_abs_eq (representable_of hbelow (by omega) ?_) hunits
    rw [← hunits]
    exact hgap.abs_ratio_le.trans (by norm_num)
  have hquotient : Single.value (x - Half.toFloat32 (Half.ofFloat32 x)) /
      Single.value (Half.toFloat32 (neighborOf x) - Half.toFloat32 (Half.ofFloat32 x)) =
      (m * 2 ^ e - m' * 2 ^ e') / (c - m' * 2 ^ e') := by
    rw [hresidualvalue, hdistancevalue, signed_div_signed]
  rw [← hquotient] at hrepresentable ⊢
  refine Single.div_value hresidual hdistance ?_ hrepresentable
  rw [hdistancevalue]
  exact fun hzero => hgap.distance_ne (signed_eq_zero.mp hzero)

theorem weight_bounds (h : Half.Nearest x s m e m' e') (hx : x.isFinite = true) {c : ℚ} {k : Int}
    (hgap : Gap (m * 2 ^ e) (m' * 2 ^ e') c k) (hleast : -24 ≤ k) (hk : k ≤ e')
    (hahead : (Half.toFloat32 (neighborOf x)).isFinite = true)
    (hvalue : Single.value (Half.toFloat32 (neighborOf x)) = signed s c) :
    0.0 < weight x ∧ weight x ≤ 0.5 := by
  obtain ⟨hweight, hweightvalue⟩ := weight_value h hx hgap hleast hk hahead hvalue
  constructor
  · rw [Single.lt_iff_value isFinite_zero hweight, value_zero, hweightvalue]
    exact hgap.side
  · rw [Single.le_iff_value hweight isFinite_half, value_half, hweightvalue]
    exact (le_abs_self _).trans hgap.abs_ratio_le

/-- The neighbour of a position further away from zero than its nearest half value. -/
theorem neighborOf_outwards (h : Half.Nearest x s m e m' e') (hx : x.isFinite = true)
    (hlt : (m' * 2 ^ e' : ℚ) < m * 2 ^ e) :
    (neighborOf x).toNat = half.withSign s (half.finiteBits m' e' + 1) := by
  obtain ⟨hresidual, hvalue⟩ := residual_value h hx hlt.ne'
  rw [neighborOf, decide_pos hresidual hvalue (sub_pos.mpr hlt)]
  exact neighbor_outwards h.pattern h.canonical'.finite (base_sign h)

/-- The neighbour of a position closer to zero than its nearest half value. -/
theorem neighborOf_inwards (h : Half.Nearest x s m e m' e') (hx : x.isFinite = true)
    (hlt : (m * 2 ^ e : ℚ) < m' * 2 ^ e') :
    0 < half.finiteBits m' e' ∧
      (neighborOf x).toNat = half.withSign s (half.finiteBits m' e' - 1) := by
  have hpos : 0 < half.finiteBits m' e' :=
    (Format.value_pos_iff h.canonical').mp (lt_of_le_of_lt (by positivity) hlt)
  obtain ⟨hresidual, hvalue⟩ := residual_value h hx hlt.ne
  have hopposite : signed s (m * 2 ^ e - m' * 2 ^ e') = signed (!s) (m' * 2 ^ e' - m * 2 ^ e) := by
    cases s <;> simp [signed]
  refine ⟨hpos, ?_⟩
  rw [neighborOf, decide_pos hresidual (hvalue.trans hopposite) (sub_pos.mpr hlt), Bool.not_not]
  exact neighbor_inwards h.pattern h.canonical'.finite hpos (base_sign h hpos.ne')

end

/-! ## §5 The two ends -/

theorem step_of_magnitude {bits next : UInt16} {s : Bool} {n n' : Nat}
    (hbits : bits.toNat = half.withSign s n) (hnext : next.toNat = half.withSign s n')
    (hstep : n' = n + 1 ∨ n' + 1 = n) :
    next.toNat = bits.toNat + 1 ∨ next.toNat + 1 = bits.toNat := by
  rw [hbits, hnext]
  cases s <;> simp only [Format.withSign, Bool.false_eq_true, if_true, if_false] <;> omega

theorem adjacent_of_magnitude {bits next : UInt16} {s : Bool} {n n' : Nat}
    (hbits : bits.toNat = half.withSign s n) (hnext : next.toNat = half.withSign s n')
    (hn : n ≤ half.infinityBits) (hn' : n' ≤ half.infinityBits) (hstep : n' = n + 1 ∨ n' + 1 = n)
    (h : UInt16) :
    ¬ (Half.toFloat32 bits < Half.toFloat32 h ∧ Half.toFloat32 h < Half.toFloat32 next) ∧
      ¬ (Half.toFloat32 next < Half.toFloat32 h ∧ Half.toFloat32 h < Half.toFloat32 bits) := by
  have hsign : half.infinityBits < half.signBit := by decide
  refine adjacent_of_rank (Half.isNumber_of_le hn hbits) (Half.isNumber_of_le hn' hnext) ?_ h
  rw [hbits, hnext, Format.rank_withSign s (hn'.trans_lt hsign),
    Format.rank_withSign s (hn.trans_lt hsign)]
  rcases hstep with rfl | rfl <;> cases s <;> simp

/-- What interpolation finds at a position that is no half value: two neighbouring half values, and
either an infinite one of them or the weight between the two. -/
structure Between (position : Float32) : Prop where
  brackets : Brackets position (Half.ofFloat32 position) (neighborOf position)
  blends : (Half.toFloat32 (neighborOf position)).isInf = true ∨
    (Half.toFloat32 (neighborOf position)).isFinite = true ∧
      0.0 < weight position ∧ weight position ≤ 0.5 ∧
        Single.value (weight position) =
          (Single.value position - Single.value (Half.toFloat32 (Half.ofFloat32 position))) /
            (Single.value (Half.toFloat32 (neighborOf position)) -
              Single.value (Half.toFloat32 (Half.ofFloat32 position)))

section

variable {x : Float32} {s : Bool} {m m' : Nat} {e e' : Int}

/-- Between two finite half values. -/
theorem between_of_gap (h : Half.Nearest x s m e m' e') (hx : x.isFinite = true) {m'' : Nat}
    {e'' k : Int} (hc : half.Canonical m'' e'')
    (hnext : (neighborOf x).toNat = half.withSign s (half.finiteBits m'' e''))
    (hstep : half.finiteBits m'' e'' = half.finiteBits m' e' + 1 ∨
      half.finiteBits m'' e'' + 1 = half.finiteBits m' e')
    (hgap : Gap (m * 2 ^ e) (m' * 2 ^ e') (m'' * 2 ^ e'') k) (hleast : -24 ≤ k) (hk : k ≤ e') :
    Between x := by
  obtain ⟨hbase, hbasevalue⟩ := base_value h
  obtain ⟨hahead, haheadvalue⟩ := Half.value_toFloat32 hc hnext
  obtain ⟨hpos, hhalf⟩ := weight_bounds h hx hgap hleast hk hahead haheadvalue
  refine ⟨⟨step_of_magnitude h.pattern hnext hstep, ?_,
    adjacent_of_magnitude h.pattern hnext h.canonical'.finite.le hc.finite.le hstep⟩,
    .inr ⟨hahead, hpos, hhalf, ?_⟩⟩
  · rw [Single.lt_iff_value hbase hx, Single.lt_iff_value hx hahead, Single.lt_iff_value hahead hx,
      Single.lt_iff_value hx hbase, hbasevalue, haheadvalue, h.value]
    exact hgap.inside_signed s
  · have hvalue := (weight_value h hx hgap hleast hk hahead haheadvalue).2
    rw [hvalue, h.value, hbasevalue, haheadvalue]
    exact (signed_div_signed s _ _).symm.trans (by rw [← signed_sub, ← signed_sub]; rfl)

/-- Between the largest finite half value and infinity. -/
theorem between_of_infinity (h : Half.Nearest x s m e m' e') (hx : x.isFinite = true)
    (hlt : (m' * 2 ^ e' : ℚ) < m * 2 ^ e)
    (hnext : (neighborOf x).toNat = half.withSign s half.infinityBits)
    (hlast : half.infinityBits = half.finiteBits m' e' + 1) : Between x := by
  obtain ⟨hbase, hbasevalue⟩ := base_value h
  have hdecode := Half.decode_toFloat32_infinity hnext
  have hnumber := Half.isNaN_toFloat32.mpr (Half.isNumber_of_le le_rfl hnext)
  have hnan := Single.isNaN_of_isFinite hx
  refine ⟨⟨step_of_magnitude h.pattern hnext (.inl hlast), ?_,
    adjacent_of_magnitude h.pattern hnext h.canonical'.finite.le le_rfl (.inl hlast)⟩,
    .inl (Single.isInf_of_decode hdecode)⟩
  rw [Single.lt_iff_value hbase hx, Single.lt_iff_value hx hbase, Single.compare_place hnan hnumber,
    Single.compare_place hnumber hnan, Single.place_of_isFinite hx, hdecode, h.value, hbasevalue]
  cases s
  · exact .inl ⟨hlt, WithBot.coe_lt_coe.mpr (WithTop.coe_lt_top _)⟩
  · exact .inr ⟨WithBot.bot_lt_coe _, neg_lt_neg hlt⟩

theorem exists_nearest_ne {position : Float32} (hposition : position.isFinite = true)
    (hbase : (Half.toFloat32 (Half.ofFloat32 position)).isFinite = true)
    (hne : (Half.toFloat32 (Half.ofFloat32 position) == position) = false) :
    ∃ s m e m' e', Half.Nearest position s m e m' e' ∧ (m * 2 ^ e : ℚ) ≠ m' * 2 ^ e' := by
  obtain ⟨s, m, e, m', e', h⟩ := Half.exists_nearest hposition hbase
  refine ⟨s, m, e, m', e', h, fun heq => ?_⟩
  have hbeq := (Single.beq_iff_value hbase hposition).mpr (by
    rw [(base_value h).2, h.value, ← heq]
    rfl)
  rw [hne] at hbeq
  cases hbeq

/-- A finite position that is no half value lies between two neighbouring ones. -/
theorem between {position : Float32} (hposition : position.isFinite = true)
    (hbase : (Half.toFloat32 (Half.ofFloat32 position)).isFinite = true)
    (hne : (Half.toFloat32 (Half.ofFloat32 position) == position) = false) : Between position := by
  obtain ⟨s, m, e, m', e', h, hdiffers⟩ := exists_nearest_ne hposition hbase hne
  rcases hdiffers.lt_or_gt with hlt | hlt
  -- Nearer to zero: a smaller magnitude is always finite.
  · obtain ⟨hpos, hnext⟩ := neighborOf_inwards h hposition hlt
    have hfinite := h.canonical'.finite
    obtain ⟨m'', e'', hc, hmagnitude⟩ :=
      Format.exists_canonical (f := half) (n := half.finiteBits m' e' - 1) (by omega)
    have hstep : half.finiteBits m' e' = half.finiteBits m'' e'' + 1 := by omega
    rw [hmagnitude] at hnext
    exact between_of_gap h hposition hc hnext (.inr hstep.symm) (gap_inwards h hlt hc hstep)
      hc.least (hc.exponent_le h.canonical' (by omega))
  -- Further from zero: after the largest finite magnitude comes infinity.
  · have hnext := neighborOf_outwards h hposition hlt
    have hfinite : half.finiteBits m' e' + 1 ≤ half.infinityBits := h.canonical'.finite
    rcases hfinite.lt_or_eq with hfinite | hlast
    · obtain ⟨m'', e'', hc, hmagnitude⟩ := Format.exists_canonical hfinite
      rw [hmagnitude] at hnext
      exact between_of_gap h hposition hc hnext (.inl hmagnitude.symm)
        (gap_outwards h hlt hc hmagnitude.symm) h.canonical'.least le_rfl
    · rw [hlast] at hnext
      exact between_of_infinity h hposition hlt hnext hlast.symm

end

end HalfDomain

/-! ## §6 Interpolation -/

namespace SampleArray

open HalfDomain

variable {ω : Type} [Precision ω Float32] (a : SampleArray ω) (channel : Nat)

/-- Interpolation at a finite position. -/
theorem halfInterpolated_of_isFinite {position : Float32} (hposition : position.isFinite = true) :
    a.halfInterpolated position channel =
      if (Half.toFloat32 (Half.ofFloat32 position)).isInf ||
          position - Half.toFloat32 (Half.ofFloat32 position) == (0.0 : Float32) then
        a.sample (Half.ofFloat32 position).toNat channel
      else if (Half.toFloat32 (neighborOf position)).isInf then
        a.sample (Half.ofFloat32 position).toNat channel
      else
        Scalar.blend (a.sample (Half.ofFloat32 position).toNat channel : Float32)
          (a.sample (neighborOf position).toNat channel) (weight position) := by
  unfold halfInterpolated
  dsimp only
  rw [Single.isNaN_of_isFinite hposition, Single.isInf_of_isFinite hposition]
  rfl

/-- Interpolation away from the half values. -/
theorem halfInterpolated_of_ne {position : Float32} (hposition : position.isFinite = true)
    (hbase : (Half.toFloat32 (Half.ofFloat32 position)).isFinite = true)
    (hne : (Half.toFloat32 (Half.ofFloat32 position) == position) = false) :
    a.halfInterpolated position channel =
      if (Half.toFloat32 (neighborOf position)).isInf then
        a.sample (Half.ofFloat32 position).toNat channel
      else
        Scalar.blend (a.sample (Half.ofFloat32 position).toNat channel : Float32)
          (a.sample (neighborOf position).toNat channel) (weight position) := by
  obtain ⟨s, m, e, m', e', h, hdiffers⟩ := exists_nearest_ne hposition hbase hne
  obtain ⟨hresidual, hvalue⟩ := residual_value h hposition hdiffers
  have hzero : (position - Half.toFloat32 (Half.ofFloat32 position) == (0.0 : Float32)) =
      false := by
    rw [Bool.eq_false_iff, ne_eq, Single.beq_iff_value hresidual isFinite_zero, hvalue, value_zero,
      signed_eq_zero, sub_eq_zero]
    exact hdiffers
  rw [a.halfInterpolated_of_isFinite channel hposition, Single.isInf_of_isFinite hbase, hzero]
  rfl

/-- A position that equals its nearest half value. -/
theorem halfInterpolated_of_beq {position : Float32} (hposition : position.isFinite = true)
    (hbase : (Half.toFloat32 (Half.ofFloat32 position)).isFinite = true)
    (heq : (Half.toFloat32 (Half.ofFloat32 position) == position) = true) :
    a.halfInterpolated position channel = a.sample (Half.ofFloat32 position).toNat channel := by
  have hzero : (position - Half.toFloat32 (Half.ofFloat32 position) == (0.0 : Float32)) = true := by
    have hvalue := ((Single.beq_iff_value hbase hposition).mp heq).symm
    obtain ⟨hresidual, hresidualvalue⟩ := Single.sub_value_of_eq hposition hbase hvalue
    rw [Single.beq_iff_value hresidual isFinite_zero, hresidualvalue, value_zero]
  rw [a.halfInterpolated_of_isFinite channel hposition, Single.isInf_of_isFinite hbase, hzero]
  rfl

theorem halfInterpolated_finite {h : UInt16} {s : Bool} {m : Nat} {e : Int}
    (hc : half.Canonical m e) (hh : h.toNat = half.withSign s (half.finiteBits m e)) :
    a.halfInterpolated (Half.toFloat32 h) channel = a.sample h.toNat channel := by
  obtain ⟨hfinite, -⟩ := Half.value_toFloat32 hc hh
  have hback := Half.ofFloat32_toFloat32 (Half.isNumber_of_le hc.finite.le hh)
  have hresult := a.halfInterpolated_of_beq channel hfinite (by rwa [hback]) (by
    rw [hback, Single.beq_iff_value hfinite hfinite])
  rwa [hback] at hresult

/-- A position beyond the half values. -/
theorem halfInterpolated_of_isInf {position : Float32} (hposition : position.isFinite = true)
    (hbase : (Half.toFloat32 (Half.ofFloat32 position)).isInf = true) :
    a.halfInterpolated position channel = a.sample (Half.ofFloat32 position).toNat channel := by
  rw [a.halfInterpolated_of_isFinite channel hposition, hbase]
  rfl

theorem halfInterpolated_infinite {h : UInt16} {s : Bool}
    (hh : h.toNat = half.withSign s half.infinityBits) :
    a.halfInterpolated (Half.toFloat32 h) channel = a.sample h.toNat channel := by
  have hdecode := Half.decode_toFloat32_infinity hh
  have hnan := Half.isNaN_toFloat32.mpr (Half.isNumber_of_le le_rfl hh)
  have hsign : (0.0 : Float32) < Half.toFloat32 h ↔ s = false := by
    rw [Single.compare_place (Single.isNaN_of_isFinite isFinite_zero) hnan, hdecode,
      Single.place_of_isFinite isFinite_zero]
    cases s
    · exact iff_of_true (WithBot.coe_lt_coe.mpr (WithTop.coe_lt_top _)) rfl
    · exact iff_of_false not_lt_bot (by decide)
  unfold halfInterpolated
  rw [hnan, Single.isInf_of_decode hdecode, if_neg (by decide), if_pos rfl, hh]
  cases s
  · rw [if_pos (hsign.mpr rfl)]
    rfl
  · rw [if_neg (hsign.not.mpr (by decide))]
    rfl

/-- At a half value the row of its pattern is read. -/
theorem halfInterpolated_toFloat32 {h : UInt16} (hh : (Half.toFloat32 h).isNaN = false) :
    a.halfInterpolated (Half.toFloat32 h) channel = a.sample h.toNat channel := by
  have hnumber := Half.isNaN_toFloat32.mp hh
  have hlt : h.toNat < half.patternCount := h.toNat_lt
  generalize hbits : h.toNat = n at hlt
  rw [← hbits]
  cases Format.shape hlt with
  | nan s hpos hr =>
    rw [Half.IsNumber, hbits] at hnumber
    exact absurd (Format.decode_withSign_nan s hpos hr) (hnumber _ _)
  | infinite s => exact a.halfInterpolated_infinite channel hbits
  | finite s hc => exact a.halfInterpolated_finite channel hc hbits

/-- Interpolation between half values, for a table of any shape. At a finite position with a finite
nearest half value that it differs from, the two rows are those of neighbouring half values around
the position, and the weight is the exact fraction of the way between them, at most one half. The
nearest row itself is read where the other half value is infinite, and at every half value. -/
theorem halfInterpolated_brackets :
    (∀ position : Float32, position.isFinite = true →
      (Half.toFloat32 (Half.ofFloat32 position)).isFinite = true →
      (Half.toFloat32 (Half.ofFloat32 position) == position) = false →
      Brackets position (Half.ofFloat32 position) (neighborOf position) ∧
        ((Half.toFloat32 (neighborOf position)).isInf = true ∧
            a.halfInterpolated position channel =
              a.sample (Half.ofFloat32 position).toNat channel ∨
          (Half.toFloat32 (neighborOf position)).isFinite = true ∧
            (0.0 < weight position ∧ weight position ≤ 0.5) ∧
            Single.value (weight position) =
              (Single.value position - Single.value (Half.toFloat32 (Half.ofFloat32 position))) /
                (Single.value (Half.toFloat32 (neighborOf position)) -
                  Single.value (Half.toFloat32 (Half.ofFloat32 position))) ∧
            a.halfInterpolated position channel =
              Scalar.blend (a.sample (Half.ofFloat32 position).toNat channel)
                (a.sample (neighborOf position).toNat channel) (weight position))) ∧
      ∀ h : UInt16, (Half.toFloat32 h).isNaN = false →
        a.halfInterpolated (Half.toFloat32 h) channel = a.sample h.toNat channel := by
  refine ⟨fun position hposition hbase hne => ?_,
    fun h hh => a.halfInterpolated_toFloat32 channel hh⟩
  obtain ⟨hbrackets, hblends⟩ := between hposition hbase hne
  have hresult := a.halfInterpolated_of_ne channel hposition hbase hne
  refine ⟨hbrackets, ?_⟩
  rcases hblends with hinf | ⟨hahead, hpos, hhalf, hvalue⟩
  · rw [if_pos hinf] at hresult
    exact .inl ⟨hinf, hresult⟩
  · rw [Single.isInf_of_isFinite hahead, if_neg (by decide)] at hresult
    exact .inr ⟨hahead, ⟨hpos, hhalf⟩, hvalue, hresult⟩

-- Just below zero the rows are those of negative zero and of the negative value next to it.
theorem halfInterpolated_brackets_below_zero :
    ((-1e-8 : Float32).isFinite = true ∧
        (Half.toFloat32 (Half.ofFloat32 (-1e-8))).isFinite = true ∧
        (Half.toFloat32 (Half.ofFloat32 (-1e-8)) == -1e-8) = false) ∧
      Brackets (-1e-8) 0x8000 0x8001 ∧
      (0.0 < weight (-1e-8) ∧ weight (-1e-8) ≤ 0.5) ∧
      (ramp 65536 1 : SampleArray Double).halfInterpolated (-1e-8) 0 =
        Scalar.blend ((ramp 65536 1 : SampleArray Double).sample 0x8000 0)
          ((ramp 65536 1 : SampleArray Double).sample 0x8001 0) (weight (-1e-8)) ∧
      (Half.toFloat32 0x8000).isNaN = false ∧
      (ramp 65536 1 : SampleArray Double).halfInterpolated (Half.toFloat32 0x8000) 0 =
        (ramp 65536 1 : SampleArray Double).sample 0x8000 0 := by
  have hposition : (-1e-8 : Float32).isFinite = true := by decide
  have hbits : Half.ofFloat32 (-1e-8) = 0x8000 := by decide
  have hnext : neighborOf (-1e-8) = 0x8001 := by decide
  have hbase : (Half.toFloat32 (Half.ofFloat32 (-1e-8))).isFinite = true := by decide
  have hne : (Half.toFloat32 (Half.ofFloat32 (-1e-8)) == -1e-8) = false := by decide
  have hnumber : (Half.toFloat32 0x8000).isNaN = false := by decide
  obtain ⟨hbetween, hexact⟩ := halfInterpolated_brackets (ramp 65536 1 : SampleArray Double) 0
  obtain ⟨hbrackets, hends⟩ := hbetween _ hposition hbase hne
  rw [hbits, hnext] at hbrackets hends
  obtain ⟨-, hweight, -, hblend⟩ := hends.resolve_left fun hinf => absurd hinf.1 (by decide)
  exact ⟨⟨hposition, hbase, hne⟩, hbrackets, hweight, hblend, hnumber, hexact _ hnumber⟩

end SampleArray

end CommonLut
