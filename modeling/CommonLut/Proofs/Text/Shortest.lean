import CommonLut.Proofs.Binary.Rounding
import CommonLut.Text.Shortest

/-!
# The shortest decimal lies in the rounding interval

The points of a decimal grid that the search looks at are the points of the rounding interval, so
that whatever it finds rounds to the value it was asked for. It always finds something: at the last
grid, seventeen places below the leading one, two neighbours are closer than half the distance to
the next value.

Main statement: `digits_spec`.
-/

namespace CommonLut.Text.Shortest

open Binary

/-! ## §1 Grids in an interval -/

/-- Whether a value, counted in the denominator of an interval, is in it as far as its lower end is
concerned. -/
def Interval.AboveLow (i : Interval) (x : ℚ) : Prop :=
  if i.closed then (i.low : ℚ) ≤ x else (i.low : ℚ) < x

/-- The same for its upper end. -/
def Interval.BelowHigh (i : Interval) (x : ℚ) : Prop :=
  if i.closed then x ≤ (i.high : ℚ) else x < (i.high : ℚ)

/-- A point of the grid of multiples of `10 ^ place`, counted in the denominator. -/
def Interval.point (i : Interval) (place : ℤ) (k : Nat) : ℚ := k * 10 ^ place * i.denominator

section

variable {i : Interval} {place : ℤ}

theorem Interval.cast_step (k : Nat) :
    ((k * (Nat.pow 10 place.toNat * i.denominator) : Nat) : ℚ) =
      i.point place k * (Nat.pow 10 (-place).toNat : Nat) := by
  have h := zpow_mul_pow_toNat (b := 10) (by norm_num) place
  simp only [Nat.pow_eq, Interval.point]
  push_cast
  rw [← h]
  ring

/-- A comparison with a grid point as the search makes it. -/
theorem Interval.le_point_iff (n k : Nat) :
    n * Nat.pow 10 (-place).toNat ≤ k * (Nat.pow 10 place.toNat * i.denominator) ↔
      (n : ℚ) ≤ i.point place k := by
  have hpos : (0 : ℚ) < (Nat.pow 10 (-place).toNat : Nat) := by
    exact_mod_cast Nat.pow_pos (by decide)
  rw [← Nat.cast_le (α := ℚ), Interval.cast_step, Nat.cast_mul, mul_le_mul_iff_left₀ hpos]

theorem Interval.lt_point_iff (n k : Nat) :
    n * Nat.pow 10 (-place).toNat < k * (Nat.pow 10 place.toNat * i.denominator) ↔
      (n : ℚ) < i.point place k := by
  have hpos : (0 : ℚ) < (Nat.pow 10 (-place).toNat : Nat) := by
    exact_mod_cast Nat.pow_pos (by decide)
  rw [← Nat.cast_lt (α := ℚ), Interval.cast_step, Nat.cast_mul, mul_lt_mul_iff_left₀ hpos]

theorem Interval.point_le_iff (n k : Nat) :
    k * (Nat.pow 10 place.toNat * i.denominator) ≤ n * Nat.pow 10 (-place).toNat ↔
      i.point place k ≤ n := by
  rw [← not_lt, Interval.lt_point_iff, not_lt]

theorem Interval.point_lt_iff (n k : Nat) :
    k * (Nat.pow 10 place.toNat * i.denominator) < n * Nat.pow 10 (-place).toNat ↔
      i.point place k < n := by
  rw [← not_le, Interval.le_point_iff, not_le]

/-- The first point of the span is the first one above the lower end. -/
theorem Interval.first_le_iff (hden : 0 < i.denominator) (k : Nat) :
    (i.span place).first ≤ k ↔ i.AboveLow (i.point place k) := by
  have hstep : 0 < Nat.pow 10 place.toNat * i.denominator :=
    Nat.mul_pos (Nat.pow_pos (by decide)) hden
  rw [Interval.span, Interval.AboveLow]
  dsimp only
  split
  · rw [← Interval.le_point_iff, ← Nat.lt_add_one_iff, Nat.div_lt_iff_lt_mul hstep, Nat.add_mul]
    omega
  · rw [← Interval.lt_point_iff, Nat.add_one_le_iff, Nat.div_lt_iff_lt_mul hstep]

/-- The last point of the span is the last one below the upper end. -/
theorem Interval.le_last_iff (hden : 0 < i.denominator) (hhigh : 0 < i.high) (k : Nat) :
    k ≤ (i.span place).last ↔ i.BelowHigh (i.point place k) := by
  have hstep : 0 < Nat.pow 10 place.toNat * i.denominator :=
    Nat.mul_pos (Nat.pow_pos (by decide)) hden
  have hpos : 0 < i.high * Nat.pow 10 (-place).toNat :=
    Nat.mul_pos hhigh (Nat.pow_pos (by decide))
  rw [Interval.span, Interval.BelowHigh]
  dsimp only
  split
  · rw [← Interval.point_le_iff, Nat.le_div_iff_mul_le hstep]
  · rw [← Interval.point_lt_iff, Nat.le_div_iff_mul_le hstep]
    omega

theorem Interval.le_below_iff (hden : 0 < i.denominator) (k : Nat) :
    k ≤ (i.span place).below ↔ i.point place k ≤ i.value := by
  have hstep : 0 < Nat.pow 10 place.toNat * i.denominator :=
    Nat.mul_pos (Nat.pow_pos (by decide)) hden
  rw [← Interval.point_le_iff]
  exact Nat.le_div_iff_mul_le hstep

/-- The value lies between the ends of an interval. -/
structure Interval.Proper (i : Interval) : Prop where
  denominator : 0 < i.denominator
  low : i.low < i.value
  high : i.value < i.high

/-- The value lies between the two grid points around it, of which the lower one is below the upper
end and the upper one above the lower end. -/
theorem Interval.Proper.span_around (h : i.Proper) :
    (i.span place).first ≤ (i.span place).below + 1 ∧ (i.span place).below ≤ (i.span place).last := by
  have hlow : (i.low : ℚ) < i.value := by exact_mod_cast h.low
  have hhigh : (i.value : ℚ) < i.high := by exact_mod_cast h.high
  constructor
  · have hnext : (i.value : ℚ) < i.point place ((i.span place).below + 1) := by
      rw [← not_le, ← Interval.le_below_iff h.denominator]
      omega
    rw [Interval.first_le_iff h.denominator, Interval.AboveLow]
    split
    · exact (hlow.trans hnext).le
    · exact hlow.trans hnext
  · have hthis := (Interval.le_below_iff h.denominator (i.span place).below).mp (Nat.le_refl _)
    rw [Interval.le_last_iff h.denominator (Nat.zero_lt_of_lt h.high), Interval.BelowHigh]
    split
    · exact (hthis.trans_lt hhigh).le
    · exact hthis.trans_lt hhigh

end

/-! ## §2 The candidates -/

/-- A candidate is positive and between the first and the last point. -/
theorem GridSpan.best?_spec {s : GridSpan} {size d : Nat} (hsize : 0 < size)
    (hfirst : s.first ≤ s.below + 1) (hlast : s.below ≤ s.last) (hd : s.best? size = some d) :
    0 < d ∧ s.first ≤ d * size ∧ d * size ≤ s.last := by
  have hdown : s.below / size * size ≤ s.below := Nat.div_mul_le_self _ _
  have hup : s.below < (s.below / size + 1) * size := by
    rw [← Nat.div_lt_iff_lt_mul hsize]
    exact Nat.lt_add_one _
  have hlower : 0 < s.below / size ∧ s.first ≤ s.below / size * size →
      0 < s.below / size ∧ s.first ≤ s.below / size * size ∧ s.below / size * size ≤ s.last :=
    fun h => ⟨h.1, h.2, by omega⟩
  have hupper : (s.below / size + 1) * size ≤ s.last →
      0 < s.below / size + 1 ∧ s.first ≤ (s.below / size + 1) * size ∧
        (s.below / size + 1) * size ≤ s.last :=
    fun h => ⟨Nat.succ_pos _, by omega, h⟩
  -- Whichever of the two candidates is taken, it was found to be in the interval.
  unfold best? at hd
  simp only [Bool.and_eq_true, decide_eq_true_eq] at hd
  split at hd
  · next h =>
    split at hd
    · cases hd
      exact hlower h.1
    · cases hd
      exact hupper h.2
  · split at hd
    · next h =>
      cases hd
      exact hlower h
    · split at hd
      · next h =>
        cases hd
        exact hupper h
      · cases hd

/-- There is a candidate if one step above the value is still in the interval. -/
theorem GridSpan.best?_isSome {s : GridSpan} {size : Nat} (h : s.below + size ≤ s.last) :
    (s.best? size).isSome := by
  have hdown : s.below / size * size ≤ s.below := Nat.div_mul_le_self _ _
  have habove : (s.below / size + 1) * size ≤ s.last := by
    rw [Nat.add_mul, Nat.one_mul]
    omega
  unfold best?
  simp only [habove, decide_true, Bool.and_true, if_true]
  split
  · rfl
  · rfl

theorem mem_grids {place size : Nat} (h : (place, size) ∈ grids) :
    size = 10 ^ place ∧ 1 ≤ place ∧ place ≤ gridCount := by
  simp only [grids, List.mem_map, List.mem_range, Prod.mk.injEq] at h
  obtain ⟨k, hk, rfl, rfl⟩ := h
  exact ⟨rfl, by omega, by omega⟩

/-! ## §3 The rounding interval -/

section

variable {f : Format} {m : Nat} {e : ℤ}

theorem Interval.of_proper (hm : 0 < m) : (Interval.of f m e).Proper := by
  have hunit : 0 < 1 <<< (e - 2).toNat := by
    rw [Nat.one_shiftLeft]
    positivity
  have hden : 0 < 1 <<< (2 - e).toNat := by
    rw [Nat.one_shiftLeft]
    positivity
  refine ⟨hden, Nat.mul_lt_mul_of_pos_right ?_ hunit, Nat.mul_lt_mul_of_pos_right ?_ hunit⟩
  · split <;> omega
  · omega

/-- A number counted in the unit of an interval is one counted in its denominator. -/
theorem unit_eq : ((1 <<< (e - 2).toNat : Nat) : ℚ) = 2 ^ e / 4 * (1 <<< (2 - e).toNat : Nat) := by
  have h := zpow_mul_pow_toNat (b := 2) (by norm_num) (e - 2)
  rw [neg_sub] at h
  rw [cast_shiftLeft, cast_shiftLeft, ← h, zpow_sub₀ (by norm_num)]
  push_cast
  ring

theorem Interval.of_value :
    ((Interval.of f m e).value : ℚ) = m * 2 ^ e * (Interval.of f m e).denominator := by
  simp only [Interval.of]
  rw [Nat.cast_mul, unit_eq, Nat.cast_mul]
  generalize ((1 <<< (2 - e).toNat : Nat) : ℚ) = denominator
  push_cast
  ring

theorem Interval.of_high :
    ((Interval.of f m e).high : ℚ) =
      (m * 2 ^ e + 2 ^ e / 2) * (Interval.of f m e).denominator := by
  simp only [Interval.of]
  rw [Nat.cast_mul, unit_eq, Nat.cast_add, Nat.cast_mul]
  generalize ((1 <<< (2 - e).toNat : Nat) : ℚ) = denominator
  push_cast
  ring

/-- What lies in the interval rounds to the value. -/
theorem Interval.of_roundsTo (hm : 0 < m) {v : ℚ}
    (hlow : (Interval.of f m e).AboveLow (v * (Interval.of f m e).denominator))
    (hhigh : (Interval.of f m e).BelowHigh (v * (Interval.of f m e).denominator)) :
    f.RoundsTo m e v := by
  have hden : (0 : ℚ) < (1 <<< (2 - e).toNat : Nat) := by
    exact_mod_cast (Interval.of_proper (f := f) (e := e) hm).denominator
  have hgap : (if m = f.fieldUnit ∧ f.leastExponent < e then 1 else 2) = f.lowerGap m e := rfl
  have hgapLe : f.lowerGap m e ≤ 4 * m := by
    unfold Format.lowerGap
    split <;> omega
  simp only [Interval.AboveLow, Interval.BelowHigh, Interval.of, hgap] at hlow hhigh
  rw [Nat.cast_mul, Nat.cast_sub hgapLe, unit_eq] at hlow
  rw [Nat.cast_mul, unit_eq] at hhigh
  push_cast at hlow hhigh
  -- The ends belong to the interval just for an even significand, as ties do.
  by_cases hodd : m % 2 = 1
  · have hopen : (m % 2 == 0) = false := by simp [hodd]
    rw [hopen, if_neg Bool.false_ne_true, ← mul_assoc, mul_lt_mul_iff_left₀ hden] at hlow hhigh
    exact ⟨by linarith, by linarith, fun _ => ⟨by linarith, by linarith⟩⟩
  · have hclosed : (m % 2 == 0) = true := by simpa using hodd
    rw [hclosed, if_pos rfl, ← mul_assoc, mul_le_mul_iff_left₀ hden] at hlow hhigh
    exact ⟨by linarith, by linarith, fun h => absurd h hodd⟩

end

/-! ## §4 The search succeeds -/

/-- The decimal exponent that is worked out from a binary one is not too large. -/
theorem pow_ten_le {t L : ℤ} (ht : 100000 * t ≤ 30103 * L) (hlow : -400 ≤ t) (hhigh : t ≤ 400) :
    (10 : ℚ) ^ t ≤ 2 ^ (L + 1) := by
  have hone : (1 : ℚ) ≤ 2 := by norm_num
  -- The factor is a little below the logarithm, so only the finitely many exponents can be checked.
  rcases le_total 0 t with hsign | hsign
  · obtain ⟨n, rfl⟩ := Int.eq_ofNat_of_zero_le hsign
    have hpow : ∀ n ≤ 400, 10 ^ n ≤ 2 ^ ((100000 * n) / 30103 + 1) := by decide +kernel
    calc (10 : ℚ) ^ (n : ℤ) = ((10 ^ n : Nat) : ℚ) := by push_cast; rfl
      _ ≤ ((2 ^ ((100000 * n) / 30103 + 1) : Nat) : ℚ) := by exact_mod_cast hpow n (by omega)
      _ = 2 ^ (((100000 * n) / 30103 + 1 : Nat) : ℤ) := by push_cast; rfl
      _ ≤ 2 ^ (L + 1) := zpow_le_zpow_right₀ hone (by omega)
  · obtain ⟨n, hn⟩ := Int.eq_ofNat_of_zero_le (show 0 ≤ -t by omega)
    obtain rfl : t = -(n : ℤ) := by omega
    have hpow : ∀ n ≤ 400, 2 ^ ((100000 * n) / 30103) ≤ 2 * 10 ^ n := by decide +kernel
    have hcast : (2 : ℚ) ^ ((100000 * n) / 30103) ≤ 2 * 10 ^ n := by
      exact_mod_cast hpow n (by omega)
    rw [zpow_neg, zpow_natCast, inv_le_iff_one_le_mul₀ (by positivity)]
    calc (1 : ℚ) = 2 ^ (1 - ((100000 * n / 30103 : Nat) : ℤ)) * 2 ^ (100000 * n / 30103) / 2 := by
          rw [zpow_sub₀ (by norm_num), zpow_natCast]
          field_simp
      _ ≤ 2 ^ (1 - ((100000 * n / 30103 : Nat) : ℤ)) * (2 * 10 ^ n) / 2 := by gcongr
      _ ≤ 2 ^ (L + 1) * (2 * 10 ^ n) / 2 := by
          gcongr 2 ^ ?_ * _ / _
          omega
      _ = 2 ^ (L + 1) * 10 ^ n := by ring

section

variable {f : Format} {m : Nat} {e : ℤ}

theorem log2_mul_two_pow {m : Nat} (hm : 0 < m) (k : Nat) : (m * 2 ^ k).log2 = m.log2 + k := by
  refine (Nat.log2_eq_iff (by positivity)).mpr ⟨?_, ?_⟩
  · rw [Nat.pow_add]
    exact Nat.mul_le_mul_right _ (Nat.log2_self_le hm.ne')
  · rw [Nat.add_right_comm, Nat.pow_add]
    exact Nat.mul_lt_mul_of_pos_right Nat.lt_log2_self (by positivity)

/-- The place of the coarsest grid, from significand and exponent. -/
theorem topPlace_of (hm : 0 < m) :
    topPlace (Interval.of f m e) = (m.log2 + 1 + e) * 30103 / 100000 + 1 := by
  have hvalue : (4 * m * 1 <<< (e - 2).toNat).log2 = m.log2 + 2 + (e - 2).toNat := by
    rw [Nat.one_shiftLeft, show 4 * m = m * 2 ^ 2 by ring, log2_mul_two_pow (by positivity),
      log2_mul_two_pow hm]
  have hden : (1 <<< (2 - e).toNat).log2 = (2 - e).toNat := by
    rw [Nat.one_shiftLeft, Nat.log2_two_pow]
  unfold topPlace
  rw [show (Interval.of f m e).value = 4 * m * 1 <<< (e - 2).toNat from rfl,
    show (Interval.of f m e).denominator = 1 <<< (2 - e).toNat from rfl, hvalue, hden]
  congr 3
  omega

/-- The exponents and significands that formats have. -/
theorem canonical_bounds (h : f.Canonical m e) (hm : 0 < m) :
    -1074 ≤ e ∧ e ≤ 972 ∧ m < 2 ^ 53 ∧ m.log2 ≤ 52 := by
  obtain ⟨hleast, hbelow, -, hfinite⟩ := h
  have hm53 : m < 2 ^ 53 := by
    have : 2 * f.fieldUnit ≤ 2 ^ 53 := by cases f <;> decide
    omega
  have hexp : -1074 ≤ f.leastExponent := by cases f <;> decide
  refine ⟨by omega, ?_, hm53, ?_⟩
  · unfold Format.finiteBits at hfinite
    cases f <;> simp only [Format.leastExponent, Format.fieldUnit, Format.infinityBits] at * <;>
      omega
  · have := (Nat.log2_lt hm.ne').mpr hm53
    omega

/-- Two neighbours on the last grid are closer than half of the distance to the next value. -/
theorem last_step_lt (h : f.Canonical m e) (hm : 0 < m) :
    (10 : ℚ) * 10 ^ (topPlace (Interval.of f m e) - gridCount) < 2 ^ e / 2 := by
  obtain ⟨he, he', -, hlog⟩ := canonical_bounds h hm
  rw [topPlace_of hm]
  generalize hL : (m.log2 : ℤ) + 1 + e = L
  -- `30103 / 100000` stands for the logarithm of two, at a cost of one binary place at most.
  have hdiv : 100000 * (L * 30103 / 100000) ≤ 30103 * L := by omega
  have hpow := pow_ten_le hdiv (by omega) (by omega)
  have hten : (10 : ℚ) ≠ 0 := by norm_num
  have hsplit : (10 : ℚ) * 10 ^ (L * 30103 / 100000 + 1 - gridCount) =
      10 ^ (L * 30103 / 100000) / 10 ^ 17 := by
    rw [← zpow_one_add₀ hten, ← zpow_natCast, ← zpow_sub₀ hten]
    congr 1
    simp only [gridCount]
    push_cast
    ring
  have hL' : (2 : ℚ) ^ (L + 1) ≤ 2 ^ e * 2 ^ 54 := by
    rw [← zpow_natCast, ← zpow_add₀ (by norm_num)]
    exact zpow_le_zpow_right₀ (by norm_num) (by push_cast; omega)
  have hpos : (0 : ℚ) < 2 ^ e := by positivity
  rw [hsplit, div_lt_div_iff₀ (by norm_num) (by norm_num)]
  calc (10 : ℚ) ^ (L * 30103 / 100000) * 2 ≤ 2 ^ e * 2 ^ 54 * 2 := by linarith
    _ < 2 ^ e * 10 ^ 17 := by
        rw [mul_assoc]
        gcongr
        norm_num

/-- On the last grid the point after the value is still in the interval. -/
theorem best?_last_isSome (h : f.Canonical m e) (hm : 0 < m) :
    (((Interval.of f m e).span (topPlace (Interval.of f m e) - gridCount)).best? 10).isSome := by
  have hstep := last_step_lt h hm
  have hproper := Interval.of_proper (f := f) (e := e) hm
  have hden : (0 : ℚ) < (Interval.of f m e).denominator := by exact_mod_cast hproper.denominator
  generalize hplace : topPlace (Interval.of f m e) - gridCount = place at hstep
  -- Ten steps from the point below the value stay under the upper end.
  apply GridSpan.best?_isSome
  have hbelow := (@Interval.le_below_iff _ place hproper.denominator _).mp (Nat.le_refl _)
  have hvalue := Interval.of_value (f := f) (m := m) (e := e)
  have hhigh := Interval.of_high (f := f) (m := m) (e := e)
  have hlt : (Interval.of f m e).point place
      (((Interval.of f m e).span place).below + 10) < (Interval.of f m e).high := by
    unfold Interval.point at hbelow ⊢
    rw [hvalue] at hbelow
    rw [hhigh]
    push_cast
    have hstep' := mul_lt_mul_of_pos_right hstep hden
    linarith
  rw [Interval.le_last_iff hproper.denominator (Nat.zero_lt_of_lt hproper.high),
    Interval.BelowHigh]
  split
  · exact hlt.le
  · exact hlt

/-- The digits found for a value round to it. -/
theorem digits_spec (h : f.Canonical m e) (hm : 0 < m) :
    0 < (digits f m e).1 ∧ f.RoundsTo m e ((digits f m e).1 * 10 ^ (digits f m e).2) := by
  have hproper := Interval.of_proper (f := f) (e := e) hm
  unfold digits
  dsimp only
  generalize hfine : topPlace (Interval.of f m e) - gridCount = fine
  generalize hsearch : grids.findSome? _ = found
  -- The last grid has a candidate, so the search ends with one.
  have hsome : found.isSome := by
    rw [← hsearch, List.findSome?_isSome_iff]
    refine ⟨(1, 10), by decide, ?_⟩
    rw [Option.isSome_map, ← hfine]
    exact best?_last_isSome h hm
  obtain ⟨⟨d, place⟩, hfound⟩ := Option.isSome_iff_exists.mp hsome
  obtain ⟨⟨p, size⟩, hmem, hbest⟩ := List.exists_of_findSome?_eq_some (hsearch.trans hfound)
  rw [hfound]
  simp only [Option.map_eq_some_iff, Prod.mk.injEq] at hbest
  obtain ⟨d', hbest, rfl, rfl⟩ := hbest
  obtain ⟨rfl, -, -⟩ := mem_grids hmem
  obtain ⟨hfirst, hlast⟩ := @Interval.Proper.span_around _ fine hproper
  obtain ⟨hd, hlow, hhigh⟩ := GridSpan.best?_spec (by positivity) hfirst hlast hbest
  refine ⟨hd, Interval.of_roundsTo hm ?_ ?_⟩
  all_goals
    have hpoint : (d' * 10 ^ (fine + (p : ℤ)) * (Interval.of f m e).denominator : ℚ) =
        (Interval.of f m e).point fine (d' * 10 ^ p) := by
      unfold Interval.point
      rw [zpow_add₀ (by norm_num), zpow_natCast]
      push_cast
      ring
  · show (Interval.of f m e).AboveLow
      (d' * 10 ^ (fine + (p : ℤ)) * (Interval.of f m e).denominator)
    rw [hpoint]
    exact (Interval.first_le_iff hproper.denominator _).mp hlow
  · show (Interval.of f m e).BelowHigh
      (d' * 10 ^ (fine + (p : ℤ)) * (Interval.of f m e).denominator)
    rw [hpoint]
    exact (Interval.le_last_iff hproper.denominator (Nat.zero_lt_of_lt hproper.high) _).mp hhigh

end

end CommonLut.Text.Shortest
