import CommonLut.Proofs.Binary.Rounding
import Mathlib.Data.Nat.Bitwise

/-!
# Passage to a wider format and back

A pattern of a format is taken to the pattern of any wider format without loss: what it stands for
is the same datum, except that what is no number becomes a quiet one. So a value that has been
widened, even more than once, is narrowed to the pattern it came from.

Main definitions: `Datum.Same`, `Format.Represents`.
Main statements: `Format.represents_decode`, `Format.ofDatum_of_same`, `Format.decode_ofDatum_same`.
-/

namespace CommonLut.Binary

/-! ## §1 The same datum -/

/-- Agreement in everything that a passage between formats keeps: sign, exact value, and the payload
of what is no number with its leading bit set. -/
def Datum.Same : Datum → Datum → Prop
  | .finite s m e, .finite s' m' e' => s = s' ∧ (m * 2 ^ e : ℚ) = m' * 2 ^ e'
  | .infinite s, .infinite s' => s = s'
  | .nan s p, .nan s' p' => s = s' ∧ double.quietBit ||| p = double.quietBit ||| p'
  | _, _ => False

theorem Datum.Same.refl (x : Datum) : x.Same x := by
  cases x <;> simp [Datum.Same]

theorem Datum.Same.trans {x y z : Datum} (h : x.Same y) (h' : y.Same z) : x.Same z := by
  cases x <;> cases y <;> cases z <;> simp_all [Datum.Same]

theorem Datum.Same.symm {x y : Datum} (h : x.Same y) : y.Same x := by
  cases x <;> cases y <;> simp_all [Datum.Same]

namespace Format

/-! ## §2 Finite values -/

/-- Shifting a significand keeps the value. -/
theorem shift_value (m k : Nat) (e : Int) :
    ((m * 2 ^ k : Nat) * 2 ^ (e - k) : ℚ) = m * 2 ^ e := by
  rw [zpow_sub₀ (by norm_num), zpow_natCast]
  push_cast
  field_simp

/-- How far a significand of a wider format can be shifted up. -/
private theorem exists_shift {m : Nat} (unit room : Nat) (hunit : m < 2 * unit) :
    ∃ k ≤ room, m * 2 ^ k < 2 * unit ∧ (unit ≤ m * 2 ^ k ∨ k = room) := by
  induction room with
  | zero => exact ⟨0, Nat.le_refl 0, by simpa using hunit, .inr rfl⟩
  | succ room ih =>
    obtain ⟨k, hk, hbelow, hleading⟩ := ih
    by_cases hle : unit ≤ m * 2 ^ k
    · exact ⟨k, by omega, hbelow, .inl hle⟩
    · have hroom : k = room := hleading.resolve_left hle
      have hdouble : m * 2 ^ (k + 1) = 2 * (m * 2 ^ k) := by ring
      exact ⟨k + 1, by omega, by omega, .inr (by omega)⟩

/-- The order of the formats by width. -/
theorem widths {f g : Format} (h : f.precision ≤ g.precision) :
    f = g ∨ (f.fieldUnit ≤ g.fieldUnit ∧ g.leastExponent ≤ f.leastExponent ∧
      ((f.leastExponent - g.leastExponent).toNat * f.fieldUnit + f.infinityBits) * g.fieldUnit +
        2 * g.fieldUnit * f.fieldUnit ≤ g.infinityBits * f.fieldUnit) := by
  cases f <;> cases g <;> first
    | exact .inl rfl
    | exact absurd h (by decide)
    | exact .inr (by decide)

/-- A finite value of a format is one of every wider format. -/
theorem exists_canonical_wider {f g : Format} (hfg : f.precision ≤ g.precision) {m : Nat} {e : Int}
    (h : f.Canonical m e) (hm : 0 < m) :
    ∃ m' e', g.Canonical m' e' ∧ 0 < m' ∧ (m' * 2 ^ e' : ℚ) = m * 2 ^ e := by
  rcases widths hfg with rfl | ⟨hunit, hleast, hinf⟩
  · exact ⟨m, e, h, hm, rfl⟩
  obtain ⟨hl, hb, -, hf⟩ := h
  obtain ⟨k, hk, hbelow, hleading⟩ :=
    exists_shift g.fieldUnit (e - g.leastExponent).toNat (show m < 2 * g.fieldUnit by omega)
  refine ⟨m * 2 ^ k, e - k, ⟨by omega, hbelow, by omega, ?_⟩, by positivity, shift_value m k e⟩
  -- the exponents of the narrower format are far from the largest one of the wider
  have hexp : (e - k - g.leastExponent).toNat ≤
      (e - f.leastExponent).toNat + (f.leastExponent - g.leastExponent).toNat := by omega
  have hfield : (e - f.leastExponent).toNat * f.fieldUnit ≤ f.infinityBits := by
    unfold finiteBits at hf
    omega
  have hpos := f.fieldUnit_pos
  unfold finiteBits
  refine Nat.lt_of_mul_lt_mul_right (a := f.fieldUnit) (Nat.lt_of_lt_of_le ?_ hinf)
  have h₁ : (e - k - g.leastExponent).toNat * g.fieldUnit * f.fieldUnit ≤
      ((f.leastExponent - g.leastExponent).toNat * f.fieldUnit + f.infinityBits) * g.fieldUnit := by
    calc (e - k - g.leastExponent).toNat * g.fieldUnit * f.fieldUnit
        ≤ ((e - f.leastExponent).toNat + (f.leastExponent - g.leastExponent).toNat) *
            g.fieldUnit * f.fieldUnit := by gcongr
      _ = ((f.leastExponent - g.leastExponent).toNat * f.fieldUnit +
            (e - f.leastExponent).toNat * f.fieldUnit) * g.fieldUnit := by ring
      _ ≤ _ := by gcongr
  have h₂ : m * 2 ^ k * f.fieldUnit < 2 * g.fieldUnit * f.fieldUnit :=
    Nat.mul_lt_mul_of_pos_right hbelow hpos
  rw [Nat.add_mul]
  omega

/-! ## §3 What is no number -/

theorem payloadUnit_eq (f : Format) : f.payloadUnit = 2 ^ (53 - f.precision) := by
  cases f <;> rfl

/-- A payload with its leading bit set, in the fraction field of a format. -/
theorem quietBit_or_div (f : Format) (p : Nat) :
    (double.quietBit ||| p) / f.payloadUnit = f.quietBit ||| p / f.payloadUnit := by
  have hquiet : double.quietBit / f.payloadUnit = f.quietBit := by cases f <;> rfl
  rw [payloadUnit_eq] at hquiet ⊢
  rw [← Nat.shiftRight_eq_div_pow, Nat.shiftRight_or_distrib, Nat.shiftRight_eq_div_pow, hquiet,
    Nat.shiftRight_eq_div_pow]

theorem quietBit_or_mul (f : Format) (r : Nat) :
    (f.quietBit ||| r) * f.payloadUnit = double.quietBit ||| r * f.payloadUnit := by
  have hquiet : f.quietBit * f.payloadUnit = double.quietBit := by cases f <;> rfl
  rw [payloadUnit_eq] at hquiet ⊢
  rw [← Nat.shiftLeft_eq, Nat.shiftLeft_or_distrib, Nat.shiftLeft_eq, hquiet, Nat.shiftLeft_eq]

theorem quietBit_or_lt {f : Format} {r : Nat} (hr : r < f.fieldUnit) :
    f.quietBit ||| r < f.fieldUnit := by
  have hunit : f.fieldUnit = 2 ^ (f.precision - 1) := by cases f <;> rfl
  have hquiet : f.quietBit < f.fieldUnit := by cases f <;> decide
  rw [hunit] at hr hquiet ⊢
  exact Nat.or_lt_two_pow hquiet hr

theorem quietBit_or_pos (f : Format) (r : Nat) : 0 < f.quietBit ||| r := by
  have hquiet : 0 < f.quietBit := by cases f <;> decide
  exact Nat.lt_of_lt_of_le hquiet Nat.left_le_or

/-! ## §4 The passage -/

/-- A format has a pattern for a datum: everything that is the same as the datum goes to it. -/
def Represents (g : Format) (d : Datum) : Prop :=
  ∃ wide < g.patternCount, (g.decode wide).Same d ∧ ∀ x : Datum, x.Same d → g.ofDatum x = wide

theorem withSign_lt_patternCount {g : Format} (s : Bool) {n : Nat} (hn : n < g.signBit) :
    g.withSign s n < g.patternCount := by
  cases s <;> simp only [withSign, patternCount] <;> simp <;> omega

theorem represents_infinite (g : Format) (s : Bool) : g.Represents (.infinite s) := by
  have hinf := g.infinityBits_add_fieldUnit
  have hunit := g.fieldUnit_pos
  refine ⟨g.withSign s g.infinityBits, withSign_lt_patternCount s (by omega), ?_, fun x hx => ?_⟩
  · rw [decode_withSign_infinity]
    exact Datum.Same.refl _
  · cases x <;> simp_all [Datum.Same, ofDatum]

/-- A payload keeps its place from the top, so a wider fraction holds it. -/
theorem represents_nan {f g : Format} (hfg : f.precision ≤ g.precision) (s : Bool) {r : Nat}
    (hr : r < f.fieldUnit) : g.Represents (.nan s (r * f.payloadUnit)) := by
  have hinf := g.infinityBits_add_fieldUnit
  have hp : r * f.payloadUnit / g.payloadUnit < g.fieldUnit := by
    have hr' : r * f.payloadUnit < f.fieldUnit * f.payloadUnit :=
      Nat.mul_lt_mul_of_pos_right hr (by cases f <;> decide)
    have hwide : f.fieldUnit * f.payloadUnit = g.fieldUnit * g.payloadUnit := by
      cases f <;> cases g <;> rfl
    exact Nat.div_lt_of_lt_mul (by rwa [Nat.mul_comm g.payloadUnit, ← hwide])
  have hdvd : r * f.payloadUnit / g.payloadUnit * g.payloadUnit = r * f.payloadUnit := by
    have hunits : g.payloadUnit ∣ f.payloadUnit := by
      rw [payloadUnit_eq, payloadUnit_eq]
      exact Nat.pow_dvd_pow 2 (by omega)
    exact Nat.div_mul_cancel (hunits.mul_left r)
  have hlt := quietBit_or_lt hp
  refine ⟨g.withSign s (g.infinityBits + (g.quietBit ||| r * f.payloadUnit / g.payloadUnit)),
    withSign_lt_patternCount s (by omega), ?_, fun x hx => ?_⟩
  · -- The passage sets the leading bit, which does not count in the comparison.
    rw [decode_withSign_nan s (g.quietBit_or_pos _) hlt, quietBit_or_mul, hdvd]
    refine ⟨rfl, ?_⟩
    rw [← Nat.or_assoc, Nat.or_self]
  · cases x with
    | nan s' p =>
      obtain ⟨rfl, hpay⟩ := hx
      rw [ofDatum, ← quietBit_or_div, hpay, quietBit_or_div]
    | finite => exact hx.elim
    | infinite => exact hx.elim

theorem represents_zero (g : Format) (s : Bool) (e : Int) : g.Represents (.finite s 0 e) := by
  have hinf := g.infinityBits_add_fieldUnit
  have hunit := g.fieldUnit_pos
  refine ⟨g.withSign s 0, withSign_lt_patternCount s (by omega), ?_, fun x hx => ?_⟩
  · rw [decode_withSign_zero]
    exact ⟨rfl, by simp⟩
  · cases x with
    | finite s' m' e' =>
      obtain ⟨rfl, hval⟩ := hx
      have hm' : m' = 0 := by
        have hpow : (2 : ℚ) ^ e' ≠ 0 := by positivity
        rw [Nat.cast_zero, zero_mul, mul_eq_zero, or_iff_left hpow] at hval
        exact_mod_cast hval
      subst hm'
      simp [ofDatum, nearest]
    | infinite => exact hx.elim
    | nan => exact hx.elim

/-- A number is represented where a canonical form has its value. -/
theorem represents_finite {g : Format} (s : Bool) {m m' : Nat} {e e' : Int}
    (h : g.Canonical m' e') (hm' : 0 < m') (hval : (m' * 2 ^ e' : ℚ) = m * 2 ^ e) :
    g.Represents (.finite s m e) := by
  have hinf := g.infinityBits_add_fieldUnit
  have hfinite := h.finite
  refine ⟨g.withSign s (g.finiteBits m' e'), withSign_lt_patternCount s (by omega), ?_,
    fun x hx => ?_⟩
  · rw [decode_withSign_finiteBits s h]
    exact ⟨rfl, hval⟩
  · cases x with
    | finite s' n q =>
      obtain ⟨rfl, hx⟩ := hx
      apply nearest_eq s' Nat.one_pos h hm'
      have hn : (n : ℚ) / (1 : Nat) * 2 ^ q = m' * 2 ^ e' := by
        rw [Nat.cast_one, div_one, hx, hval]
      rw [hn]
      exact roundsTo_self g m' e'
    | infinite => exact hx.elim
    | nan => exact hx.elim

/-- Every pattern of a format stands for something that a wider format represents. -/
theorem represents_decode {f g : Format} (hfg : f.precision ≤ g.precision) {bits : Nat}
    (hbits : bits < f.patternCount) : g.Represents (f.decode bits) := by
  cases shape hbits with
  | infinite s =>
    rw [decode_withSign_infinity]
    exact g.represents_infinite s
  | nan s hpos hr =>
    rw [decode_withSign_nan s hpos hr]
    exact represents_nan hfg s hr
  | @finite s m e h =>
    rw [decode_withSign_finiteBits s h]
    rcases Nat.eq_zero_or_pos m with rfl | hm
    · exact g.represents_zero s e
    · obtain ⟨m', e', hcanonical, hm', hval⟩ := exists_canonical_wider hfg h hm
      exact represents_finite s hcanonical hm' hval

/-- Whatever is the same as a pattern goes to the same place in a wider format. -/
theorem ofDatum_of_same {f g : Format} (hfg : f.precision ≤ g.precision) {bits : Nat}
    (hbits : bits < f.patternCount) {x : Datum} (hx : x.Same (f.decode bits)) :
    g.ofDatum x = g.ofDatum (f.decode bits) := by
  obtain ⟨wide, -, -, hwide⟩ := represents_decode hfg hbits
  rw [hwide x hx, hwide _ (Datum.Same.refl _)]

/-- A passage to a wider format loses nothing. -/
theorem decode_ofDatum_same {f g : Format} (hfg : f.precision ≤ g.precision) {bits : Nat}
    (hbits : bits < f.patternCount) {x : Datum} (hx : x.Same (f.decode bits)) :
    (g.decode (g.ofDatum x)).Same (f.decode bits) := by
  obtain ⟨wide, -, hsame, hwide⟩ := represents_decode hfg hbits
  rwa [hwide x hx]

theorem ofDatum_lt_patternCount {f g : Format} (hfg : f.precision ≤ g.precision) {bits : Nat}
    (hbits : bits < f.patternCount) {x : Datum} (hx : x.Same (f.decode bits)) :
    g.ofDatum x < g.patternCount := by
  obtain ⟨wide, hlt, -, hwide⟩ := represents_decode hfg hbits
  rwa [hwide x hx]

/-- The pattern of a number is the one nearest to it. -/
theorem ofDatum_decode {f : Format} {bits : Nat} (hbits : bits < f.patternCount)
    (hnumber : ∀ s p, f.decode bits ≠ .nan s p) : f.ofDatum (f.decode bits) = bits := by
  cases shape hbits with
  | infinite s => rw [decode_withSign_infinity, ofDatum]
  | nan s hpos hr => exact absurd (decode_withSign_nan s hpos hr) (hnumber _ _)
  | @finite s m e h =>
    rw [decode_withSign_finiteBits s h, ofDatum]
    rcases Nat.eq_zero_or_pos m with rfl | hm
    · have he : e = f.leastExponent := by
        have := f.fieldUnit_pos
        have := h.leading
        omega
      simp [nearest, finiteBits, he]
    · apply nearest_eq s Nat.one_pos h hm
      rw [Nat.cast_one, div_one]
      exact roundsTo_self f m e

end Format

end CommonLut.Binary
