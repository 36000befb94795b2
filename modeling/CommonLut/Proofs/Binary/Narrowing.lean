import CommonLut.Proofs.Binary.Widening

/-!
# Passage to a narrower format

A pattern of any format is rounded to a pattern of any other one. What has been rounded is a pattern
like every other: passed on to its own format again it stays as it is.

Main definition: `Datum.Fits`.
Main statements: `Format.ofDatum_lt_of_fits`, `Format.ofDatum_decode_ofDatum`.
-/

namespace CommonLut.Binary

/-- The payload of what is no number fits the widest fraction field. -/
def Datum.Fits : Datum → Prop
  | .nan _ payload => payload < double.fieldUnit
  | _ => True

namespace Format

variable {f : Format}

/-- What a pattern of any format stands for fits. -/
theorem fits_decode {bits : Nat} (hbits : bits < f.patternCount) : (f.decode bits).Fits := by
  cases shape hbits with
  | finite s h => rw [decode_withSign_finiteBits s h]; trivial
  | infinite s => rw [decode_withSign_infinity]; trivial
  | nan s hpos hr =>
    rw [decode_withSign_nan s hpos hr]
    -- Payloads are counted in units of the widest fraction field.
    have hunit : f.fieldUnit * f.payloadUnit = double.fieldUnit := by cases f <;> rfl
    have hpayload : 0 < f.payloadUnit := by cases f <;> decide
    show _ < double.fieldUnit
    rw [← hunit]
    exact Nat.mul_lt_mul_of_pos_right hr hpayload

/-- A value is rounded to a number or to infinity. -/
theorem exists_nearest_eq (f : Format) (s : Bool) (n d : Nat) (q : Int) :
    ∃ magnitude ≤ f.infinityBits, f.nearest s n d q = f.withSign s magnitude := by
  unfold nearest
  split
  · exact ⟨0, Nat.zero_le _, rfl⟩
  · exact ⟨_, Nat.min_le_right _ _, rfl⟩

/-- The fraction field that a payload gets. -/
theorem quietBit_or_payload_lt {payload : Nat} (h : payload < double.fieldUnit) :
    f.quietBit ||| payload / f.payloadUnit < f.fieldUnit := by
  refine quietBit_or_lt (Nat.div_lt_of_lt_mul ?_)
  rwa [show f.payloadUnit * f.fieldUnit = double.fieldUnit by cases f <;> rfl]

theorem ofDatum_lt_of_fits {x : Datum} (hx : x.Fits) : f.ofDatum x < f.patternCount := by
  have hinf := f.infinityBits_add_fieldUnit
  have hunit := f.fieldUnit_pos
  cases x with
  | finite s m q =>
    obtain ⟨n, hn, hnearest⟩ := f.exists_nearest_eq s m 1 q
    rw [ofDatum, hnearest]
    exact withSign_lt_patternCount s (by omega)
  | infinite s => exact withSign_lt_patternCount s (by omega)
  | nan s payload =>
    have hlt := quietBit_or_payload_lt (f := f) hx
    exact withSign_lt_patternCount s (by omega)

/-- What has been rounded to a format is not changed by it again. -/
theorem ofDatum_decode_ofDatum {x : Datum} (hx : x.Fits) :
    f.ofDatum (f.decode (f.ofDatum x)) = f.ofDatum x := by
  have hinf := f.infinityBits_add_fieldUnit
  have hunit := f.fieldUnit_pos
  cases x with
  | finite s m q =>
    refine ofDatum_decode (ofDatum_lt_of_fits hx) fun s' p h => ?_
    obtain ⟨n, hn, hnearest⟩ := f.exists_nearest_eq s m 1 q
    rw [ofDatum, hnearest, decode_withSign s (by omega)] at h
    -- A magnitude up to that of infinity is none of what is no number.
    split at h
    · rw [if_pos (by omega)] at h
      cases h
    · split at h <;> cases h
  | infinite s => rw [ofDatum, decode_withSign_infinity, ofDatum]
  | nan s payload =>
    -- The leading bit of the fraction has been set already.
    have hlt := quietBit_or_payload_lt (f := f) hx
    have hpayload : 0 < f.payloadUnit := by cases f <;> decide
    rw [ofDatum, decode_withSign_nan s (f.quietBit_or_pos _) hlt, ofDatum,
      Nat.mul_div_cancel _ hpayload, ← Nat.or_assoc, Nat.or_self]

end Format

end CommonLut.Binary
