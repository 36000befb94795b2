import CommonLut.Binary.Format

/-!
# Patterns and their data

A pattern of a format is a sign and a magnitude. A magnitude below that of infinity stands for a
finite value in canonical form, a larger one for what is no number. Decoding forgets nothing, and
the pattern of a canonical form is found from significand and exponent by arithmetic alone.

Main definitions: `Format.Canonical`, `Format.finiteBits`, `Format.Shape`.
Main statements: `Format.decode_withSign_finiteBits`, `Format.decode_withSign_nan`,
`Format.shape`.
-/

namespace CommonLut.Binary.Format

/-! ## §1 Canonical forms -/

/-- The magnitude of the pattern of `m * 2 ^ e`. -/
def finiteBits (f : Format) (m : Nat) (e : Int) : Nat :=
  m + (e - f.leastExponent).toNat * f.fieldUnit

/-- Significand and exponent of a finite value as decoding gives them: the significand has its
leading bit unless the exponent is the least one. -/
structure Canonical (f : Format) (m : Nat) (e : Int) : Prop where
  least : f.leastExponent ≤ e
  below : m < 2 * f.fieldUnit
  leading : f.fieldUnit ≤ m ∨ e = f.leastExponent
  finite : f.finiteBits m e < f.infinityBits

theorem fieldUnit_pos (f : Format) : 0 < f.fieldUnit := by
  cases f <;> decide

theorem infinityBits_add_fieldUnit (f : Format) : f.infinityBits + f.fieldUnit = f.signBit := by
  cases f <;> decide

/-! ## §2 Decoding -/

/-- The sign of a pattern can be split off. -/
theorem exists_withSign {f : Format} {bits : Nat} (hbits : bits < f.patternCount) :
    ∃ s, ∃ n < f.signBit, bits = f.withSign s n := by
  by_cases h : f.signBit ≤ bits
  · refine ⟨true, bits - f.signBit, ?_, ?_⟩
    · simp only [patternCount] at hbits
      omega
    · simp only [withSign, if_true]
      omega
  · exact ⟨false, bits, by omega, rfl⟩

/-- Decoding a pattern whose sign is split off. -/
theorem decode_withSign {f : Format} (s : Bool) {n : Nat} (hn : n < f.signBit) :
    f.decode (f.withSign s n) =
      if f.infinityBits ≤ n then
        if n = f.infinityBits then .infinite s else .nan s (n % f.fieldUnit * f.payloadUnit)
      else if n / f.fieldUnit = 0 then .finite s (n % f.fieldUnit) f.leastExponent
      else .finite s (n % f.fieldUnit + f.fieldUnit)
        (f.leastExponent + (n / f.fieldUnit - 1 : Nat)) := by
  cases s with
  | false =>
    have hsign : ¬ f.signBit ≤ n := by omega
    simp [withSign, decode, hsign]
  | true =>
    have hsign : f.signBit ≤ f.signBit + n := by omega
    simp [withSign, decode]

/-- A magnitude below infinity is that of a canonical form. -/
theorem exists_canonical {f : Format} {n : Nat} (hn : n < f.infinityBits) :
    ∃ m e, f.Canonical m e ∧ n = f.finiteBits m e := by
  have hunit := f.fieldUnit_pos
  have hsplit : f.fieldUnit * (n / f.fieldUnit) + n % f.fieldUnit = n := Nat.div_add_mod _ _
  have hmod : n % f.fieldUnit < f.fieldUnit := Nat.mod_lt n hunit
  -- Fields of zero and of one share the least exponent, the first without a leading bit.
  by_cases hfield : n / f.fieldUnit = 0
  · have hmag : n = f.finiteBits (n % f.fieldUnit) f.leastExponent := by
      rw [finiteBits, Int.sub_self, Int.toNat_zero, Nat.zero_mul, Nat.add_zero]
      rw [hfield] at hsplit
      omega
    exact ⟨_, _, ⟨Int.le_refl _, by omega, .inr rfl, hmag ▸ hn⟩, hmag⟩
  · have hmag : n = f.finiteBits (n % f.fieldUnit + f.fieldUnit)
        (f.leastExponent + (n / f.fieldUnit - 1 : Nat)) := by
      have hexp : (f.leastExponent + (n / f.fieldUnit - 1 : Nat) - f.leastExponent).toNat =
          n / f.fieldUnit - 1 := by omega
      rw [finiteBits, hexp, Nat.sub_mul, Nat.one_mul, Nat.mul_comm]
      have hone : f.fieldUnit ≤ f.fieldUnit * (n / f.fieldUnit) :=
        Nat.le_mul_of_pos_right _ (Nat.pos_of_ne_zero hfield)
      omega
    exact ⟨_, _, ⟨by omega, by omega, .inl (by omega), hmag ▸ hn⟩, hmag⟩

/-- The pattern of a canonical form decodes to it. -/
theorem decode_withSign_finiteBits {f : Format} (s : Bool) {m : Nat} {e : Int}
    (h : f.Canonical m e) : f.decode (f.withSign s (f.finiteBits m e)) = .finite s m e := by
  obtain ⟨hleast, hbelow, hleading, hfinite⟩ := h
  have hsign : f.finiteBits m e < f.signBit := by
    have := f.infinityBits_add_fieldUnit
    omega
  have hunit := f.fieldUnit_pos
  rw [decode_withSign s hsign, if_neg (by omega)]
  obtain ⟨k, rfl⟩ : ∃ k : Nat, e = f.leastExponent + k := ⟨(e - f.leastExponent).toNat, by omega⟩
  have hexp : (f.leastExponent + k - f.leastExponent).toNat = k := by omega
  rw [finiteBits, hexp]
  by_cases hm : m < f.fieldUnit
  · -- without the leading bit the exponent is the least one
    have hk : k = 0 := by omega
    subst hk
    simp [Nat.div_eq_of_lt hm, Nat.mod_eq_of_lt hm]
  · obtain ⟨r, rfl⟩ : ∃ r, m = f.fieldUnit + r := ⟨m - f.fieldUnit, by omega⟩
    have hr : r < f.fieldUnit := by omega
    have hbits : f.fieldUnit + r + k * f.fieldUnit = r + (k + 1) * f.fieldUnit := by
      rw [Nat.add_mul, Nat.one_mul]
      omega
    rw [hbits, Nat.add_mul_div_right _ _ hunit, Nat.add_mul_mod_self_right, Nat.div_eq_of_lt hr,
      Nat.mod_eq_of_lt hr, if_neg (by omega)]
    congr 1
    · omega
    · omega

theorem decode_withSign_zero {f : Format} (s : Bool) :
    f.decode (f.withSign s 0) = .finite s 0 f.leastExponent := by
  cases f <;> cases s <;> decide

theorem decode_withSign_infinity {f : Format} (s : Bool) :
    f.decode (f.withSign s f.infinityBits) = .infinite s := by
  cases f <;> cases s <;> decide

/-- A fraction on top of infinity decodes to its payload. -/
theorem decode_withSign_nan {f : Format} (s : Bool) {r : Nat} (hpos : 0 < r)
    (hr : r < f.fieldUnit) :
    f.decode (f.withSign s (f.infinityBits + r)) = .nan s (r * f.payloadUnit) := by
  have hsign : f.infinityBits + r < f.signBit := by
    have := f.infinityBits_add_fieldUnit
    omega
  have hmod : (f.infinityBits + r) % f.fieldUnit = r := by
    have hinf : f.infinityBits % f.fieldUnit = 0 := by cases f <;> decide
    rw [Nat.add_mod, hinf, Nat.zero_add, Nat.mod_mod, Nat.mod_eq_of_lt hr]
  rw [decode_withSign s hsign, if_pos (by omega), if_neg (by omega), hmod]

/-- What a pattern is: the sign of a canonical form, of infinity, or of what is no number. -/
inductive Shape (f : Format) : Nat → Prop where
  | finite (s : Bool) {m : Nat} {e : Int} (h : f.Canonical m e) :
      Shape f (f.withSign s (f.finiteBits m e))
  | infinite (s : Bool) : Shape f (f.withSign s f.infinityBits)
  | nan (s : Bool) {r : Nat} (hpos : 0 < r) (hr : r < f.fieldUnit) :
      Shape f (f.withSign s (f.infinityBits + r))

theorem shape {f : Format} {bits : Nat} (hbits : bits < f.patternCount) : f.Shape bits := by
  obtain ⟨s, n, hn, rfl⟩ := exists_withSign hbits
  rcases Nat.lt_trichotomy n f.infinityBits with h | h | h
  · obtain ⟨m, e, hcanonical, rfl⟩ := exists_canonical h
    exact .finite s hcanonical
  · subst h
    exact .infinite s
  · have hsign := f.infinityBits_add_fieldUnit
    obtain ⟨r, rfl⟩ : ∃ r, n = f.infinityBits + r := ⟨n - f.infinityBits, by omega⟩
    exact .nan s (by omega) (by omega)

end CommonLut.Binary.Format
