import CommonLut.Proofs.Binary.Widening
import Mathlib.Algebra.Order.Ring.Unbundled.Rat
import Mathlib.Order.WithBot

/-!
# Patterns in the order of their values

The magnitudes of patterns are ordered like the magnitudes of what they stand for, infinity
included, and consecutive magnitudes are neighbours: nothing of the format lies between them. So a
pattern has a rank, its magnitude with the sign of the pattern, which orders all numbers of the
format, and which every passage to a wider format keeps in order.

Main definitions: `signed`, `Datum.value`, `Datum.place`, `Format.rank`.
Main statements: `Format.finiteBits_lt_iff`, `Format.finiteBits_succ`, `Format.place_lt_iff`.
-/

namespace CommonLut.Binary

namespace Format

variable {f : Format} {m m' : Nat} {e e' : Int}

/-! ## §1 Magnitudes -/

/-- A larger magnitude does not have a smaller exponent. -/
theorem Canonical.exponent_le (h : f.Canonical m e) (h' : f.Canonical m' e')
    (hle : f.finiteBits m e ≤ f.finiteBits m' e') : e ≤ e' := by
  by_contra hlt
  have hsteps : (e' - f.leastExponent).toNat + 1 ≤ (e - f.leastExponent).toNat := by
    have := h'.least
    omega
  have hfields := Nat.mul_le_mul_right f.fieldUnit hsteps
  have hleading := h.leading
  have hleast := h'.least
  have hbelow := h'.below
  rw [Nat.add_mul] at hfields
  unfold finiteBits at hle
  omega

/-- A magnitude has one canonical form. -/
theorem Canonical.eq_of_finiteBits_eq (h : f.Canonical m e) (h' : f.Canonical m' e')
    (heq : f.finiteBits m e = f.finiteBits m' e') : m = m' ∧ e = e' := by
  have hexp := (h.exponent_le h' heq.le).antisymm (h'.exponent_le h heq.ge)
  subst hexp
  unfold finiteBits at heq
  omega

theorem value_lt_of_finiteBits_lt (h : f.Canonical m e) (h' : f.Canonical m' e')
    (hlt : f.finiteBits m e < f.finiteBits m' e') : (m * 2 ^ e : ℚ) < m' * 2 ^ e' := by
  rcases (h.exponent_le h' hlt.le).eq_or_lt with rfl | hexp
  · have hm : (m : ℚ) < m' := by
      unfold finiteBits at hlt
      exact_mod_cast (by omega : m < m')
    gcongr
  · -- A larger exponent outweighs every significand.
    have hm : (m : ℚ) < 2 * f.fieldUnit := by exact_mod_cast h.below
    have hm' : (f.fieldUnit : ℚ) ≤ m' := by
      have hleast := h.least
      have hleading := h'.leading
      exact_mod_cast (by omega : f.fieldUnit ≤ m')
    have hstep : (2 : ℚ) * 2 ^ e ≤ 2 ^ e' := by
      rw [← zpow_one_add₀ (by norm_num)]
      exact zpow_le_zpow_right₀ (by norm_num) (by omega)
    have hpow : (0 : ℚ) < 2 ^ e := by positivity
    calc (m * 2 ^ e : ℚ) < 2 * f.fieldUnit * 2 ^ e := by gcongr
      _ = f.fieldUnit * (2 * 2 ^ e) := by ring
      _ ≤ m' * 2 ^ e' := by gcongr

theorem finiteBits_lt_iff (h : f.Canonical m e) (h' : f.Canonical m' e') :
    f.finiteBits m e < f.finiteBits m' e' ↔ (m * 2 ^ e : ℚ) < m' * 2 ^ e' := by
  refine ⟨value_lt_of_finiteBits_lt h h', fun hlt => ?_⟩
  by_contra hge
  rcases (Nat.le_of_not_lt hge).eq_or_lt with heq | hgt
  · obtain ⟨rfl, rfl⟩ := h.eq_of_finiteBits_eq h' heq.symm
    exact hlt.ne rfl
  · exact hlt.asymm (value_lt_of_finiteBits_lt h' h hgt)

/-- The next magnitude has the next significand, or the least one of the next exponent. -/
theorem finiteBits_succ (h : f.Canonical m e) (h' : f.Canonical m' e')
    (hsucc : f.finiteBits m' e' = f.finiteBits m e + 1) :
    m' = m + 1 ∧ e' = e ∨ m + 1 = 2 * f.fieldUnit ∧ m' = f.fieldUnit ∧ e' = e + 1 := by
  have hbelow := h.below
  have hbelow' := h'.below
  have hleast := h.least
  rcases (h.exponent_le h' (by omega)).eq_or_lt with rfl | hexp
  · left
    unfold finiteBits at hsucc
    omega
  · right
    -- The exponent grew, so both significands sit at the carry: the largest, then the least.
    have hm' : f.fieldUnit ≤ m' := by
      have hleading := h'.leading
      omega
    obtain ⟨k, hk⟩ : ∃ k : Nat,
        (e' - f.leastExponent).toNat = (e - f.leastExponent).toNat + 1 + k :=
      ⟨(e' - e - 1).toNat, by omega⟩
    have hunit := f.fieldUnit_pos
    have hfield : k * f.fieldUnit = 0 ∨ f.fieldUnit ≤ k * f.fieldUnit := by
      rcases Nat.eq_zero_or_pos k with rfl | hk'
      · exact .inl (Nat.zero_mul _)
      · exact .inr (Nat.le_mul_of_pos_left _ hk')
    unfold finiteBits at hsucc
    rw [hk, Nat.add_mul, Nat.add_mul, Nat.one_mul] at hsucc
    have hk' : k = 0 :=
      (Nat.mul_eq_zero.mp (by omega : k * f.fieldUnit = 0)).resolve_right hunit.ne'
    omega

/-- The value of the next magnitude. -/
theorem value_succ (h : f.Canonical m e) (h' : f.Canonical m' e')
    (hsucc : f.finiteBits m' e' = f.finiteBits m e + 1) :
    (m' * 2 ^ e' : ℚ) = (m + 1) * 2 ^ e := by
  rcases finiteBits_succ h h' hsucc with ⟨rfl, rfl⟩ | ⟨hm, rfl, rfl⟩
  · push_cast
    rfl
  · have hm' : (m + 1 : ℚ) = 2 * f.fieldUnit := by exact_mod_cast hm
    rw [hm', zpow_add_one₀ (by norm_num)]
    ring

/-- The distance to the next magnitude, seen from there. -/
theorem lowerGap_succ (h : f.Canonical m e) (h' : f.Canonical m' e')
    (hsucc : f.finiteBits m' e' = f.finiteBits m e + 1) :
    (f.lowerGap m' e' * 2 ^ e' : ℚ) = 2 * 2 ^ e := by
  rcases finiteBits_succ h h' hsucc with ⟨rfl, rfl⟩ | ⟨hm, rfl, rfl⟩
  · rw [lowerGap, if_neg]
    · norm_num
    · rintro ⟨hm, hexp⟩
      have hleading := h.leading
      omega
  · have hleast := h.least
    rw [lowerGap, if_pos ⟨rfl, by omega⟩, zpow_add_one₀ (by norm_num)]
    push_cast
    ring

end Format

/-! ## §2 Exact values -/

/-- A magnitude with a sign. -/
def signed (negative : Bool) (v : ℚ) : ℚ := if negative then -v else v

theorem signed_sub (s : Bool) (v w : ℚ) : signed s v - signed s w = signed s (v - w) := by
  cases s
  · rfl
  · exact neg_sub_neg v w |>.trans (neg_sub v w).symm

theorem signed_div_signed (s : Bool) (v w : ℚ) : signed s v / signed s w = v / w := by
  cases s
  · rfl
  · exact neg_div_neg_eq v w

theorem abs_signed (s : Bool) (v : ℚ) : |signed s v| = |v| := by
  cases s
  · rfl
  · exact abs_neg v

theorem signed_eq_zero {s : Bool} {v : ℚ} : signed s v = 0 ↔ v = 0 := by
  rw [← abs_eq_zero, abs_signed, abs_eq_zero]

namespace Datum

/-- The exact value, zero for what has none. -/
def value : Datum → ℚ
  | .finite s m e => signed s (m * 2 ^ e)
  | .infinite _ => 0
  | .nan _ _ => 0

/-- The place on the line of numbers and infinities. -/
def place : Datum → WithBot (WithTop ℚ)
  | .infinite s => if s then ⊥ else ⊤
  | x => ((x.value : WithTop ℚ) : WithBot (WithTop ℚ))

variable {x y : Datum} {s : Bool} {m p : Nat} {e : Int}

theorem Same.exists_finite (h : x.Same (.finite s m e)) : ∃ m' e', x = .finite s m' e' := by
  cases x <;> simp_all [Same]

theorem Same.eq_infinite (h : x.Same (.infinite s)) : x = .infinite s := by
  cases x <;> simp_all [Same]

theorem Same.exists_nan (h : x.Same (.nan s p)) : ∃ p', x = .nan s p' := by
  cases x <;> simp_all [Same]

theorem Same.value_eq (h : x.Same y) : x.value = y.value := by
  cases x <;> cases y <;> simp_all [Same, value]

theorem Same.place_eq (h : x.Same y) : x.place = y.place := by
  have hvalue := h.value_eq
  cases x <;> cases y <;> simp_all [Same, place]

end Datum

namespace Format

variable {f g : Format}

/-- The position of a pattern in the order of all numbers of its format. -/
def rank (f : Format) (bits : Nat) : Int :=
  if f.signBit ≤ bits then -((bits - f.signBit : Nat) : Int) else bits

theorem withSign_inj {s : Bool} {n n' : Nat} (h : f.withSign s n = f.withSign s n') : n = n' := by
  cases s
  · exact h
  · exact Nat.add_left_cancel h

theorem rank_withSign (s : Bool) {n : Nat} (hn : n < f.signBit) :
    f.rank (f.withSign s n) = if s then -(n : Int) else n := by
  unfold rank withSign
  cases s
  · rw [if_neg (by simpa using hn)]
    rfl
  · simp

theorem infinityBits_lt_signBit (f : Format) : f.infinityBits < f.signBit := by
  cases f <;> decide

theorem infinityBits_pos (f : Format) : 0 < f.infinityBits := by
  cases f <;> decide

theorem rank_zero (f : Format) (s : Bool) : f.rank (f.withSign s 0) = 0 := by
  rw [rank_withSign s (Nat.zero_lt_of_lt f.infinityBits_lt_signBit), Nat.cast_zero, neg_zero,
    ite_self]

theorem rank_infinity (f : Format) (s : Bool) :
    f.rank (f.withSign s f.infinityBits) =
      if s then -(f.infinityBits : Int) else f.infinityBits :=
  rank_withSign s f.infinityBits_lt_signBit

theorem rank_finite (s : Bool) {m : Nat} {e : Int} (h : f.Canonical m e) :
    f.rank (f.withSign s (f.finiteBits m e)) =
      if s then -(f.finiteBits m e : Int) else f.finiteBits m e :=
  rank_withSign s (h.finite.trans f.infinityBits_lt_signBit)

theorem canonical_zero (f : Format) : f.Canonical 0 f.leastExponent := by
  refine ⟨le_rfl, by have := f.fieldUnit_pos; omega, .inr rfl, ?_⟩
  cases f <;> decide

theorem value_pos_iff {m : Nat} {e : Int} (h : f.Canonical m e) :
    (0 : ℚ) < m * 2 ^ e ↔ 0 < f.finiteBits m e := by
  have hless := finiteBits_lt_iff f.canonical_zero h
  rw [Nat.cast_zero, zero_mul] at hless
  rw [← hless, finiteBits, sub_self, Int.toNat_zero, Nat.zero_mul]

theorem value_finite_lt_iff (s s' : Bool) {m m' : Nat} {e e' : Int} (h : f.Canonical m e)
    (h' : f.Canonical m' e') :
    (Datum.finite s m e).value < (Datum.finite s' m' e').value ↔
      (if s then -(f.finiteBits m e : Int) else f.finiteBits m e) <
        if s' then -(f.finiteBits m' e' : Int) else f.finiteBits m' e' := by
  have hless := finiteBits_lt_iff h h'
  have hmore := finiteBits_lt_iff h' h
  have hpos := value_pos_iff h
  have hpos' := value_pos_iff h'
  have hnonneg : (0 : ℚ) ≤ m * 2 ^ e := by positivity
  have hnonneg' : (0 : ℚ) ≤ m' * 2 ^ e' := by positivity
  cases s <;> cases s' <;> simp only [Datum.value, signed, Bool.false_eq_true, if_true, if_false]
  · exact_mod_cast hless.symm
  · exact iff_of_false (by linarith) (by omega)
  · -- A sum of magnitudes is positive when one of them is.
    have hsum : -(m * 2 ^ e : ℚ) < m' * 2 ^ e' ↔ (0 : ℚ) < m * 2 ^ e ∨ (0 : ℚ) < m' * 2 ^ e' := by
      grind
    rw [hsum, hpos, hpos']
    omega
  · rw [neg_lt_neg_iff, ← hmore]
    omega

/-- Magnitudes up to infinity are those of numbers. -/
theorem decode_withSign_ne_nan (s : Bool) {n : Nat} (hn : n ≤ f.infinityBits) :
    ∀ s' p, f.decode (f.withSign s n) ≠ .nan s' p := by
  intro s' p hnan
  rcases hn.lt_or_eq with hlt | rfl
  · obtain ⟨m, e, hc, rfl⟩ := exists_canonical hlt
    rw [decode_withSign_finiteBits s hc] at hnan
    cases hnan
  · rw [decode_withSign_infinity] at hnan
    cases hnan

/-- Numbers of a format are ordered like their ranks. -/
theorem place_lt_iff {a b : Nat} (ha : a < f.patternCount) (hb : b < f.patternCount)
    (hna : ∀ s p, f.decode a ≠ .nan s p) (hnb : ∀ s p, f.decode b ≠ .nan s p) :
    (f.decode a).place < (f.decode b).place ↔ f.rank a < f.rank b := by
  have hinfpos := f.infinityBits_pos
  have htop (q : ℚ) : ((q : WithTop ℚ) : WithBot (WithTop ℚ)) < ⊤ :=
    WithBot.coe_lt_coe.mpr (WithTop.coe_lt_top q)
  -- Infinities are at the ends, and `value_finite_lt_iff` decides between finite values.
  cases shape ha with
  | nan s hpos hr => exact absurd (decode_withSign_nan s hpos hr) (hna _ _)
  | infinite s =>
    cases shape hb with
    | nan s hpos hr => exact absurd (decode_withSign_nan s hpos hr) (hnb _ _)
    | infinite t =>
      rw [decode_withSign_infinity, decode_withSign_infinity, rank_infinity, rank_infinity]
      cases s <;> cases t <;> simp [Datum.place]
      omega
    | @finite t m e h =>
      have hfinite := h.finite
      rw [decode_withSign_infinity, decode_withSign_finiteBits t h, rank_infinity,
        rank_finite t h]
      cases s <;> cases t <;> simp [Datum.place] <;> omega
  | @finite s m e h =>
    have hfinite := h.finite
    cases shape hb with
    | nan s hpos hr => exact absurd (decode_withSign_nan s hpos hr) (hnb _ _)
    | infinite t =>
      rw [decode_withSign_infinity, decode_withSign_finiteBits s h, rank_infinity,
        rank_finite s h]
      cases s <;> cases t <;> simp [Datum.place, htop] <;> omega
    | @finite t m' e' h' =>
      rw [decode_withSign_finiteBits s h, decode_withSign_finiteBits t h', rank_finite s h,
        rank_finite t h']
      simpa [Datum.place] using value_finite_lt_iff s t h h'

end Format

end CommonLut.Binary
