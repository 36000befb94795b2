import CommonLut.Proofs.Binary.Machine
import CommonLut.Proofs.Binary.Order

/-!
# Machine comparison by patterns

The machine unpacks a pattern into a sign, a significand and an exponent before it computes with it.
What it gets is known from the shape of the pattern, in both machine types alike: a zero, another
finite number in canonical form, an infinity, or no number. Unpacked numbers are compared by sign
and exponent first, which is to compare the ranks of their patterns. So the numbers of a machine
type are in a linear order, and what is no number is in no order with anything.

Main definitions: `Machine.sign`, `Machine.Unpacked`, `Machine.place`, `Scalar.Placed`.
Main statements: `Machine.unpacked`, `Machine.Unpacked.compare_eq`, `Machine.lt_iff_place`,
`Machine.le_iff_place`, `Machine.widen_le_iff`, `Scalar.placed_double`, `Scalar.placed_single`.
-/

namespace CommonLut.Binary.Machine

open Float.Model (UnpackedFloat)
open Float.Model.UnpackedFloat

/-- The machine's sign of a negative value or of another one. -/
def sign (negative : Bool) : Sign := if negative then .negative else .positive

theorem exists_sign (s : Sign) : ∃ negative, s = sign negative := by
  cases s
  · exact ⟨true, rfl⟩
  · exact ⟨false, rfl⟩

/-! ## §1 Fields as numbers -/

section
variable {spec : Float.Model.Format} {b : BitVec spec.numBits}

theorem unpackExponent_eq_full :
    unpackExponent b = -1#(spec.exponentBits) ↔
      b.toNat / 2 ^ spec.mantissaBitsWithoutImplicit % 2 ^ spec.exponentBits =
        2 ^ spec.exponentBits - 1 := by
  rw [← BitVec.toNat_inj, toNat_unpackExponent, BitVec.neg_one_eq_allOnes, BitVec.toNat_allOnes]

theorem unpackExponent_eq_zero :
    unpackExponent b = 0#(spec.exponentBits) ↔
      b.toNat / 2 ^ spec.mantissaBitsWithoutImplicit % 2 ^ spec.exponentBits = 0 := by
  rw [← BitVec.toNat_inj, toNat_unpackExponent, BitVec.toNat_zero]

theorem unpackMantissa_eq_zero :
    unpackMantissa b = 0#(spec.mantissaBitsWithoutImplicit) ↔
      b.toNat % 2 ^ spec.mantissaBitsWithoutImplicit = 0 := by
  rw [← BitVec.toNat_inj, toNat_unpackMantissa, BitVec.toNat_zero]

/-- The significand with its leading bit, which is not stored. -/
theorem toNat_leading :
    (1#1 ++ unpackMantissa b).toNat =
      2 ^ spec.mantissaBitsWithoutImplicit + b.toNat % 2 ^ spec.mantissaBitsWithoutImplicit := by
  rw [BitVec.toNat_append, ← Nat.shiftLeft_add_eq_or_of_lt (unpackMantissa b).isLt,
    toNat_unpackMantissa, BitVec.toNat_ofNat, Nat.shiftLeft_eq]
  simp

theorem sign_unpackSign :
    Sign.ofBitVec (unpackSign b) =
      sign (b.toNat / 2 ^ (spec.mantissaBitsWithoutImplicit + spec.exponentBits) % 2 == 1) := by
  have hbit : (unpackSign b).toNat =
      b.toNat / 2 ^ (spec.mantissaBitsWithoutImplicit + spec.exponentBits) % 2 := by
    rw [unpackSign_def, BitVec.extractLsb'_toNat, Nat.shiftRight_eq_div_pow, pow_one]
  have hzero : unpackSign b = 0#1 ↔ (unpackSign b).toNat = 0 := by
    rw [← BitVec.toNat_inj, BitVec.toNat_zero]
  rw [← hbit]
  unfold Sign.ofBitVec sign
  rcases Nat.mod_two_eq_zero_or_one
    (b.toNat / 2 ^ (spec.mantissaBitsWithoutImplicit + spec.exponentBits)) with h | h
  · rw [h] at hbit
    simp [hzero, hbit]
  · rw [h] at hbit
    simp [hzero, hbit]

/-- A pattern is unpacked by its fields. -/
theorem unpack_eq (b : BitVec spec.numBits) :
    unpack spec b =
      let field := b.toNat / 2 ^ spec.mantissaBitsWithoutImplicit % 2 ^ spec.exponentBits
      let fraction := b.toNat % 2 ^ spec.mantissaBitsWithoutImplicit
      let exponent : Int := field - (spec.exponentBias + spec.mantissaBitsWithoutImplicit)
      let s := sign
        (b.toNat / 2 ^ (spec.mantissaBitsWithoutImplicit + spec.exponentBits) % 2 == 1)
      if field = 2 ^ spec.exponentBits - 1 then
        if fraction = 0 then .infinity s else .notANumber
      else if field = 0 then
        if h : fraction = 0 then .zero s
        else .finite s fraction (exponent + 1) (Nat.pos_of_ne_zero h)
      else
        .finite s (2 ^ spec.mantissaBitsWithoutImplicit + fraction) exponent (by positivity) := by
  unfold unpack
  simp only [sign_unpackSign, unpackExponent_eq_full, unpackExponent_eq_zero,
    unpackMantissa_eq_zero, toNat_unpackMantissa, toNat_unpackExponent, toNat_leading]

end

/-! ## §2 Patterns by their shapes -/

section
variable {f : Binary.Format}

/-- What the machine unpacks a pattern to. -/
inductive Unpacked (f : Binary.Format) : Nat → UnpackedFloat → Prop where
  | zero (s : Bool) : Unpacked f (f.withSign s 0) (.zero (sign s))
  | finite (s : Bool) {m : Nat} {e : Int} (hc : f.Canonical m e) (hm : 0 < m) :
      Unpacked f (f.withSign s (f.finiteBits m e)) (.finite (sign s) m e hm)
  | infinite (s : Bool) : Unpacked f (f.withSign s f.infinityBits) (.infinity (sign s))
  | nan (s : Bool) {r : Nat} (hpos : 0 < r) (hr : r < f.fieldUnit) :
      Unpacked f (f.withSign s (f.infinityBits + r)) .notANumber

variable {b : BitVec f.layout.numBits} {s : Bool} {n m : Nat} {e : Int}

theorem fields_of_withSign (hn : n < f.signBit) (hb : b.toNat = f.withSign s n) :
    b.toNat / 2 ^ f.layout.mantissaBitsWithoutImplicit % 2 ^ f.layout.exponentBits =
        n / f.fieldUnit ∧
      b.toNat % 2 ^ f.layout.mantissaBitsWithoutImplicit = n % f.fieldUnit ∧
      (b.toNat / 2 ^ (f.layout.mantissaBitsWithoutImplicit + f.layout.exponentBits) % 2 == 1) =
        s := by
  rw [hb]
  -- the widths are numbers from here on, which is what the arithmetic needs
  cases f <;> cases s <;>
    simp only [Format.layout, Format.withSign, Format.signBit, Format.fieldUnit,
      Bool.false_eq_true, if_true, if_false, beq_iff_eq, beq_eq_false_iff_ne] at hn ⊢ <;>
    omega

/-- The fields of the magnitude of a canonical form. -/
theorem fields_of_finiteBits (hc : f.Canonical m e) :
    f.finiteBits m e / f.fieldUnit ≠ 2 ^ f.layout.exponentBits - 1 ∧
      (f.finiteBits m e / f.fieldUnit = 0 ∧ f.finiteBits m e % f.fieldUnit = m ∧
          -((f.layout.exponentBias : Int) + f.layout.mantissaBitsWithoutImplicit) + 1 = e ∨
        f.finiteBits m e / f.fieldUnit ≠ 0 ∧
          2 ^ f.layout.mantissaBitsWithoutImplicit + f.finiteBits m e % f.fieldUnit = m ∧
          ((f.finiteBits m e / f.fieldUnit : Nat) : Int) -
            (f.layout.exponentBias + f.layout.mantissaBitsWithoutImplicit) = e) := by
  obtain ⟨hleast, hbelow, hleading, hfinite⟩ := hc
  cases f <;>
    simp only [Format.finiteBits, Format.leastExponent, Format.fieldUnit, Format.infinityBits,
      Format.layout, Float.Model.Format.exponentBias] at hleast hbelow hleading hfinite ⊢ <;>
    omega

theorem fields_of_infinityBits {r : Nat} (hr : r < f.fieldUnit) :
    (f.infinityBits + r) / f.fieldUnit = 2 ^ f.layout.exponentBits - 1 ∧
      (f.infinityBits + r) % f.fieldUnit = r := by
  cases f <;> simp only [Format.infinityBits, Format.fieldUnit, Format.layout] at hr ⊢ <;> omega

/-- A pattern is unpacked by its sign and the fields of its magnitude. -/
theorem unpack_of_withSign (hn : n < f.signBit) (hb : b.toNat = f.withSign s n) :
    unpack f.layout b =
      let exponent : Int := (n / f.fieldUnit : Nat) -
        (f.layout.exponentBias + f.layout.mantissaBitsWithoutImplicit)
      if n / f.fieldUnit = 2 ^ f.layout.exponentBits - 1 then
        if n % f.fieldUnit = 0 then .infinity (sign s) else .notANumber
      else if n / f.fieldUnit = 0 then
        if h : n % f.fieldUnit = 0 then .zero (sign s)
        else .finite (sign s) (n % f.fieldUnit) (exponent + 1) (Nat.pos_of_ne_zero h)
      else
        .finite (sign s) (2 ^ f.layout.mantissaBitsWithoutImplicit + n % f.fieldUnit) exponent
          (by positivity) := by
  obtain ⟨hfield, hfraction, hsign⟩ := fields_of_withSign hn hb
  rw [unpack_eq]
  simp only [hfield, hfraction, hsign]

/-- The pattern of a canonical form is unpacked to it, or to a zero. -/
theorem unpacked_of_finiteBits (hc : f.Canonical m e)
    (hb : b.toNat = f.withSign s (f.finiteBits m e)) :
    Unpacked f (f.withSign s (f.finiteBits m e)) (unpack f.layout b) := by
  rw [unpack_of_withSign (hc.finite.trans f.infinityBits_lt_signBit) hb]
  obtain ⟨hfull, ⟨hempty, hfraction, hexponent⟩ | ⟨hused, hfraction, hexponent⟩⟩ :=
    fields_of_finiteBits hc
  -- An empty exponent field: a zero or a subnormal number.
  · simp only [if_neg hfull, if_pos hempty, hfraction]
    split
    · next hzero =>
      have hbits : f.finiteBits m e = 0 := by
        rw [← Nat.div_add_mod (f.finiteBits m e) f.fieldUnit, hempty, hfraction, hzero,
          Nat.mul_zero]
      rw [hbits]
      exact .zero s
    · next hpos =>
      have h : Unpacked f (f.withSign s (f.finiteBits m e)) (.finite (sign s) m e _) :=
        .finite s hc (Nat.pos_of_ne_zero hpos)
      simpa only [hempty, Nat.cast_zero, zero_sub, hexponent] using h
  · have hm : 0 < m := hfraction ▸ Nat.add_pos_left (by positivity) _
    simp only [if_neg hfull, if_neg hused, hfraction, hexponent]
    exact .finite s hc hm

/-- Every pattern is unpacked as its shape says. -/
theorem unpacked (b : BitVec f.layout.numBits) : Unpacked f b.toNat (unpack f.layout b) := by
  have hb : b.toNat < f.patternCount := b.isLt.trans_eq (by cases f <;> rfl)
  have hroom := f.infinityBits_add_fieldUnit
  have hunit := f.fieldUnit_pos
  generalize hn : b.toNat = n at hb
  cases Format.shape hb with
  | @finite s m e hc => exact unpacked_of_finiteBits hc hn
  | infinite s =>
    obtain ⟨hfull, hfraction⟩ := fields_of_infinityBits hunit
    rw [Nat.add_zero] at hfull hfraction
    rw [unpack_of_withSign (by omega) hn]
    simp only [if_pos hfull, if_pos hfraction]
    exact .infinite s
  | nan s hpos hr =>
    obtain ⟨hfull, hfraction⟩ := fields_of_infinityBits hr
    rw [unpack_of_withSign (by omega) hn]
    simp only [if_pos hfull, hfraction, if_neg hpos.ne']
    exact .nan s hpos hr

/-! ## §3 Kinds of numbers -/

namespace Unpacked

variable {u w : UnpackedFloat}

theorem eq_finite (h : Unpacked f n u) (hm : 0 < m) (hn : f.decode n = .finite s m e) :
    u = .finite (sign s) m e hm := by
  cases h with
  | zero s => rw [Format.decode_withSign_zero] at hn; cases hn; cases hm
  | finite s hc => rw [Format.decode_withSign_finiteBits s hc] at hn; cases hn; rfl
  | infinite s => rw [Format.decode_withSign_infinity] at hn; cases hn
  | nan s hpos hr => rw [Format.decode_withSign_nan s hpos hr] at hn; cases hn

theorem isNaN_iff (h : Unpacked f n u) : u.isNaN = true ↔ ∃ s p, f.decode n = .nan s p := by
  cases h with
  | zero s => rw [Format.decode_withSign_zero]; exact iff_of_false nofun nofun
  | finite s hc hm => rw [Format.decode_withSign_finiteBits s hc]; exact iff_of_false nofun nofun
  | infinite s => rw [Format.decode_withSign_infinity]; exact iff_of_false nofun nofun
  | nan s hpos hr => rw [Format.decode_withSign_nan s hpos hr]; exact iff_of_true rfl ⟨_, _, rfl⟩

theorem isInf_iff (h : Unpacked f n u) : u.isInf = true ↔ ∃ s, f.decode n = .infinite s := by
  cases h with
  | zero s => rw [Format.decode_withSign_zero]; exact iff_of_false nofun nofun
  | finite s hc hm => rw [Format.decode_withSign_finiteBits s hc]; exact iff_of_false nofun nofun
  | infinite s => rw [Format.decode_withSign_infinity]; exact iff_of_true rfl ⟨_, rfl⟩
  | nan s hpos hr => rw [Format.decode_withSign_nan s hpos hr]; exact iff_of_false nofun nofun

theorem isFinite_iff (h : Unpacked f n u) :
    u.isFinite = true ↔ ∃ s m e, f.decode n = .finite s m e := by
  cases h with
  | zero s => rw [Format.decode_withSign_zero]; exact iff_of_true rfl ⟨_, _, _, rfl⟩
  | finite s hc hm =>
    rw [Format.decode_withSign_finiteBits s hc]
    exact iff_of_true rfl ⟨_, _, _, rfl⟩
  | infinite s => rw [Format.decode_withSign_infinity]; exact iff_of_false nofun nofun
  | nan s hpos hr => rw [Format.decode_withSign_nan s hpos hr]; exact iff_of_false nofun nofun

/-- A finite number has the pattern of a canonical form. -/
theorem exists_canonical (h : Unpacked f n u) (hu : u.isFinite = true) :
    ∃ s m e, f.Canonical m e ∧ n = f.withSign s (f.finiteBits m e) := by
  cases h with
  | zero s =>
    refine ⟨s, 0, f.leastExponent, f.canonical_zero, ?_⟩
    rw [Format.finiteBits, sub_self, Int.toNat_zero, Nat.zero_mul]
  | finite s hc hm => exact ⟨s, _, _, hc, rfl⟩
  | infinite s => cases hu
  | nan s hpos hr => cases hu

/-- Finite numbers and infinities are numbers. -/
theorem isNaN_of_isFinite (hu : u.isFinite = true) : u.isNaN = false := by
  cases u <;> first | rfl | cases hu

theorem number (h : Unpacked f n u) (hu : u.isNaN = false) : ∀ s p, f.decode n ≠ .nan s p := by
  intro s p hnan
  rw [h.isNaN_iff.mpr ⟨s, p, hnan⟩] at hu
  cases hu

theorem isNaN_eq_false (h : Unpacked f n u) (hn : ∀ s p, f.decode n ≠ .nan s p) :
    u.isNaN = false := by
  rw [Bool.eq_false_iff, ne_eq, h.isNaN_iff]
  rintro ⟨s, p, hnan⟩
  exact hn s p hnan

theorem canonical_of_finite {t : Sign} {hm : 0 < m} (h : Unpacked f n (.finite t m e hm)) :
    ∃ s, t = sign s ∧ f.Canonical m e ∧ n = f.withSign s (f.finiteBits m e) := by
  cases h with
  | finite s hc => exact ⟨s, rfl, hc, rfl⟩

end Unpacked

/-- A canonical form is packed to its pattern. -/
theorem toNat_pack_finite (s : Bool) (hc : f.Canonical m e) (hm : 0 < m) :
    (pack f.layout (.finite (sign s) m e hm)).toNat = f.withSign s (f.finiteBits m e) := by
  have hroom := f.infinityBits_add_fieldUnit
  have hlt : f.withSign s (f.finiteBits m e) < 2 ^ f.layout.numBits :=
    (Format.withSign_lt_patternCount s
      (hc.finite.trans (by have := f.fieldUnit_pos; omega))).trans_eq (by cases f <;> rfl)
  obtain ⟨b, hb⟩ : ∃ b : BitVec f.layout.numBits, b.toNat = f.withSign s (f.finiteBits m e) :=
    ⟨BitVec.ofNat _ _, (BitVec.toNat_ofNat _ _).trans (Nat.mod_eq_of_lt hlt)⟩
  have hdecode : f.decode b.toNat = .finite s m e := by
    rw [hb, Format.decode_withSign_finiteBits s hc]
  have hpack := pack_unpack_of_number (f := f) (b := b) (by
    rw [hdecode]
    exact nofun)
  rw [(unpacked b).eq_finite hm hdecode] at hpack
  rw [hpack, hb]

/-! ## §4 Comparison -/

/-- Canonical forms are compared by their exponents first, which is to compare their magnitudes. -/
theorem compare_then_compare {m m' : Nat} {e e' : Int} (hc : f.Canonical m e)
    (hc' : f.Canonical m' e') :
    (compare e e').then (compare m m') =
      compare (f.finiteBits m e : Int) (f.finiteBits m' e') := by
  -- A larger exponent makes a larger magnitude, since the smaller one has a smaller field.
  have hexponent {m m' : Nat} {e e' : Int} (hc : f.Canonical m e) (hc' : f.Canonical m' e')
      (hlt : e < e') : f.finiteBits m e < f.finiteBits m' e' := by
    refine Nat.lt_of_not_le fun hle => ?_
    have := hc'.exponent_le hc hle
    omega
  rcases lt_trichotomy e e' with h | rfl | h
  · have hlt := hexponent hc hc' h
    rw [compare_lt_iff_lt.mpr h, eq_comm]
    exact compare_lt_iff_lt.mpr (by exact_mod_cast hlt)
  · rw [compare_eq_iff_eq.mpr rfl]
    unfold Format.finiteBits
    rcases lt_trichotomy m m' with h | rfl | h
    · rw [compare_lt_iff_lt.mpr h, eq_comm]
      exact compare_lt_iff_lt.mpr (by omega)
    · rw [compare_eq_iff_eq.mpr rfl, eq_comm]
      exact compare_eq_iff_eq.mpr rfl
    · rw [compare_gt_iff_gt.mpr h, eq_comm]
      exact compare_gt_iff_gt.mpr (by omega)
  · have hgt := hexponent hc' hc h
    rw [compare_gt_iff_gt.mpr h, eq_comm]
    exact compare_gt_iff_gt.mpr (by exact_mod_cast hgt)

/-- Magnitudes with signs are compared by the signs first. -/
theorem compare_signed (s t : Bool) {n n' : Int} (hn : 0 < n) (hn' : 0 < n') :
    compare (if s then -n else n) (if t then -n' else n') =
      match s, t with
      | false, false => compare n n'
      | false, true => .gt
      | true, false => .lt
      | true, true => (compare n n').swap := by
  cases s <;> cases t <;> simp only [Bool.false_eq_true, if_true, if_false]
  · exact compare_gt_iff_gt.mpr (by omega)
  · exact compare_lt_iff_lt.mpr (by omega)
  · rcases lt_trichotomy n n' with h | rfl | h
    · rw [compare_lt_iff_lt.mpr h]
      exact compare_gt_iff_gt.mpr (by omega)
    · rw [compare_eq_iff_eq.mpr rfl, compare_eq_iff_eq.mpr rfl]
      rfl
    · rw [compare_gt_iff_gt.mpr h]
      exact compare_lt_iff_lt.mpr (by omega)

theorem compare_zero_signed (t : Bool) {n : Int} (hn : 0 < n) :
    compare 0 (if t then -n else n) = if t then .gt else .lt := by
  cases t <;> simp only [Bool.false_eq_true, if_true, if_false]
  · exact compare_lt_iff_lt.mpr hn
  · exact compare_gt_iff_gt.mpr (by omega)

theorem compare_signed_zero (s : Bool) {n : Int} (hn : 0 < n) :
    compare (if s then -n else n) 0 = if s then .lt else .gt := by
  cases s <;> simp only [Bool.false_eq_true, if_true, if_false]
  · exact compare_gt_iff_gt.mpr hn
  · exact compare_lt_iff_lt.mpr (by omega)

namespace Unpacked

variable {a b : Nat} {u w : UnpackedFloat}

theorem lt_patternCount (h : Unpacked f n u) : n < f.patternCount := by
  have hroom := f.infinityBits_add_fieldUnit
  have hunit := f.fieldUnit_pos
  cases h with
  | zero s => exact Format.withSign_lt_patternCount s (by omega)
  | finite s hc hm => exact Format.withSign_lt_patternCount s (hc.finite.trans (by omega))
  | infinite s => exact Format.withSign_lt_patternCount s (by omega)
  | nan s hpos hr => exact Format.withSign_lt_patternCount s (by omega)

/-- The machine compares numbers by the ranks of their patterns. -/
theorem compare_eq (ha : Unpacked f a u) (hb : Unpacked f b w) (hu : u.isNaN = false)
    (hw : w.isNaN = false) : u.compare w = some (compare (f.rank a) (f.rank b)) := by
  have hinf : (0 : Int) < f.infinityBits := by exact_mod_cast f.infinityBits_pos
  have hpos {m : Nat} {e : Int} (hm : 0 < m) : (0 : Int) < f.finiteBits m e := by
    exact_mod_cast Nat.add_pos_left hm _
  have hfinite {m : Nat} {e : Int} (hc : f.Canonical m e) :
      compare (f.finiteBits m e : Int) f.infinityBits = .lt :=
    compare_lt_iff_lt.mpr (by exact_mod_cast hc.finite)
  have hfinite' {m : Nat} {e : Int} (hc : f.Canonical m e) :
      compare (f.infinityBits : Int) (f.finiteBits m e) = .gt :=
    compare_gt_iff_gt.mpr (by exact_mod_cast hc.finite)
  -- One case for each pair of kinds of numbers; in each both sides decide by signs first.
  cases ha with
  | nan s hpos hr => cases hu
  | zero s =>
    rw [Format.rank_zero]
    cases hb with
    | nan t hpos hr => cases hw
    | zero t =>
      rw [Format.rank_zero]
      rfl
    | finite t hc hm =>
      rw [Format.rank_finite t hc, compare_zero_signed t (hpos hm)]
      cases t <;> rfl
    | infinite t =>
      rw [Format.rank_infinity, compare_zero_signed t hinf]
      cases t <;> rfl
  | finite s hc hm =>
    rw [Format.rank_finite s hc]
    cases hb with
    | nan t hpos hr => cases hw
    | zero t =>
      rw [Format.rank_zero, compare_signed_zero s (hpos hm)]
      cases s <;> rfl
    | finite t hc' hm' =>
      rw [Format.rank_finite t hc', compare_signed s t (hpos hm) (hpos hm'),
        ← compare_then_compare hc hc']
      cases s <;> cases t <;> rfl
    | infinite t =>
      rw [Format.rank_infinity, compare_signed s t (hpos hm) hinf, hfinite hc]
      cases s <;> cases t <;> rfl
  | infinite s =>
    rw [Format.rank_infinity]
    cases hb with
    | nan t hpos hr => cases hw
    | zero t =>
      rw [Format.rank_zero, compare_signed_zero s hinf]
      cases s <;> rfl
    | finite t hc hm =>
      rw [Format.rank_finite t hc, compare_signed s t hinf (hpos hm), hfinite' hc]
      cases s <;> cases t <;> rfl
    | infinite t =>
      rw [Format.rank_infinity, compare_signed s t hinf hinf, compare_eq_iff_eq.mpr rfl]
      cases s <;> cases t <;> rfl

theorem lt_iff (ha : Unpacked f a u) (hb : Unpacked f b w) (hu : u.isNaN = false)
    (hw : w.isNaN = false) :
    u.compare w = some .lt ↔ (f.decode a).place < (f.decode b).place := by
  rw [ha.compare_eq hb hu hw, Option.some_inj, compare_lt_iff_lt,
    Format.place_lt_iff ha.lt_patternCount hb.lt_patternCount (ha.number hu) (hb.number hw)]

theorem le_iff (ha : Unpacked f a u) (hb : Unpacked f b w) (hu : u.isNaN = false)
    (hw : w.isNaN = false) :
    (u.compare w).any (fun o => o.isLE) = true ↔ (f.decode a).place ≤ (f.decode b).place := by
  rw [ha.compare_eq hb hu hw, Option.any_some, Std.isLE_compare, ← not_lt, ← not_lt,
    Format.place_lt_iff hb.lt_patternCount ha.lt_patternCount (hb.number hw) (ha.number hu)]

theorem beq_iff (ha : Unpacked f a u) (hb : Unpacked f b w) (hu : u.isNaN = false)
    (hw : w.isNaN = false) :
    (u.compare w == some .eq) = true ↔ (f.decode a).place = (f.decode b).place := by
  have hless := Format.place_lt_iff ha.lt_patternCount hb.lt_patternCount (ha.number hu)
    (hb.number hw)
  have hmore := Format.place_lt_iff hb.lt_patternCount ha.lt_patternCount (hb.number hw)
    (ha.number hu)
  rw [ha.compare_eq hb hu hw, beq_iff_eq, Option.some_inj, compare_eq_iff_eq, le_antisymm_iff,
    le_antisymm_iff, ← not_lt, ← not_lt, ← not_lt, ← not_lt, hless, hmore]

/-- What is no number is not compared. -/
theorem isNaN_of_compare {o : Ordering} (h : u.compare w = some o) :
    u.isNaN = false ∧ w.isNaN = false := by
  cases u <;> cases w <;> first | exact ⟨rfl, rfl⟩ | cases h

end Unpacked

end

/-! ## §5 Doubles -/

section
variable {x y : Float}

theorem unpacked_double (x : Float) :
    Unpacked double x.toBits.toNat (unpack .binary64 x.toBits.toBitVec) :=
  unpacked (f := double) x.toBits.toBitVec

/-- Where a double stands among the numbers and the infinities. -/
def place (x : Float) : WithBot (WithTop ℚ) := (double.decode x.toBits.toNat).place

theorem lt_iff_compare : x < y ↔ (unpack .binary64 x.toBits.toBitVec).compare
    (unpack .binary64 y.toBits.toBitVec) = some .lt := by
  have hmodel : x < y ↔ decide (x.toModel < y.toModel) = true := Iff.rfl
  rw [hmodel, decide_eq_true_iff]
  exact beq_iff_eq

theorem lt_iff_place (hx : x.isNaN = false) (hy : y.isNaN = false) :
    x < y ↔ place x < place y := by
  rw [lt_iff_compare]
  exact (unpacked_double x).lt_iff (unpacked_double y) hx hy

theorem le_iff_compare : x ≤ y ↔ ((unpack .binary64 x.toBits.toBitVec).compare
    (unpack .binary64 y.toBits.toBitVec)).any (fun o => o.isLE) = true := by
  have hmodel : x ≤ y ↔ decide (x.toModel ≤ y.toModel) = true := Iff.rfl
  rw [hmodel, decide_eq_true_iff]
  exact Iff.rfl

theorem le_iff_place (hx : x.isNaN = false) (hy : y.isNaN = false) :
    x ≤ y ↔ place x ≤ place y := by
  rw [le_iff_compare]
  exact (unpacked_double x).le_iff (unpacked_double y) hx hy

/-- What is no number is not below anything, nor is anything below it. -/
theorem isNaN_of_lt (h : x < y) : x.isNaN = false ∧ y.isNaN = false :=
  Unpacked.isNaN_of_compare (lt_iff_compare.mp h)

theorem isNaN_of_le (h : x ≤ y) : x.isNaN = false ∧ y.isNaN = false := by
  rw [le_iff_compare] at h
  cases hcompare : (unpack .binary64 x.toBits.toBitVec).compare
      (unpack .binary64 y.toBits.toBitVec) with
  | none => rw [hcompare] at h; cases h
  | some o => exact Unpacked.isNaN_of_compare hcompare

theorem isNaN_of_isFinite (hx : x.isFinite = true) : x.isNaN = false :=
  Unpacked.isNaN_of_isFinite hx

end

/-! ## §6 Singles -/

theorem unpacked_single (x : Float32) :
    Unpacked single x.toBits.toNat (unpack .binary32 x.toBits.toBitVec) :=
  unpacked (f := single) x.toBits.toBitVec

namespace Single

variable {x y : Float32}

/-- The pattern of a value that is a number stands for one. -/
theorem decode_ne_nan (hx : x.isNaN = false) :
    ∀ s p, single.decode x.toBits.toNat ≠ .nan s p :=
  (unpacked_single x).number hx

theorem isNaN_eq_false (hx : ∀ s p, single.decode x.toBits.toNat ≠ .nan s p) : x.isNaN = false :=
  (unpacked_single x).isNaN_eq_false hx

theorem lt_iff : x < y ↔
    (unpack .binary32 x.toBits.toBitVec).compare (unpack .binary32 y.toBits.toBitVec) =
      some .lt := by
  have hmodel : x < y ↔ decide (x.toModel < y.toModel) = true := Iff.rfl
  rw [hmodel, decide_eq_true_iff]
  exact beq_iff_eq

theorem compare_place (hx : x.isNaN = false) (hy : y.isNaN = false) :
    x < y ↔ (single.decode x.toBits.toNat).place < (single.decode y.toBits.toNat).place := by
  rw [lt_iff]
  exact (unpacked_single x).lt_iff (unpacked_single y) hx hy

theorem le_iff_place (hx : x.isNaN = false) (hy : y.isNaN = false) :
    x ≤ y ↔ (single.decode x.toBits.toNat).place ≤ (single.decode y.toBits.toNat).place := by
  have hle : x ≤ y ↔ ((unpack .binary32 x.toBits.toBitVec).compare
    (unpack .binary32 y.toBits.toBitVec)).any (fun o => o.isLE) = true := by
    have hmodel : x ≤ y ↔ decide (x.toModel ≤ y.toModel) = true := Iff.rfl
    rw [hmodel, decide_eq_true_iff]
    exact Iff.rfl
  rw [hle]
  exact (unpacked_single x).le_iff (unpacked_single y) hx hy

/-- What is no number is not compared. -/
theorem isNaN_of_lt (h : x < y) : x.isNaN = false ∧ y.isNaN = false :=
  Unpacked.isNaN_of_compare (lt_iff.mp h)

/-- There is one machine single that is no number. -/
theorem eq_of_isNaN (hx : x.isNaN = true) (hy : y.isNaN = true) : x = y := by
  obtain ⟨s, p, hdecode⟩ := (unpacked_single x).isNaN_iff.mp hx
  obtain ⟨s', p', hdecode'⟩ := (unpacked_single y).isNaN_iff.mp hy
  rw [← x.ofBits_toBits, ← y.ofBits_toBits, toBits_of_nan hdecode, toBits_of_nan hdecode']

end Single

/-! ## §7 Singles among the doubles -/

section
variable {x y : Float32}

/-- A widened number stands for the same datum. -/
theorem same_decode_widen (hx : x.isNaN = false) :
    (double.decode (widen x).toBits.toNat).Same (single.decode x.toBits.toNat) := by
  obtain ⟨wide, hwide, hwiden, hsame⟩ := same_widen x
  have hnat : (UInt64.ofNat wide).toNat = wide := UInt64.toNat_ofNat_of_lt' hwide
  rw [hwiden, toBits_ofBits, hnat]
  · exact hsame
  · rw [hnat]
    exact ne_nan_of_same hsame (Single.decode_ne_nan hx)

theorem isNaN_widen (hx : x.isNaN = false) : (widen x).isNaN = false :=
  (unpacked_double (widen x)).isNaN_eq_false
    (ne_nan_of_same (same_decode_widen hx) (Single.decode_ne_nan hx))

theorem place_widen (hx : x.isNaN = false) :
    place (widen x) = (single.decode x.toBits.toNat).place :=
  (same_decode_widen hx).place_eq

/-- Widening keeps the order. -/
theorem widen_le_iff (hx : x.isNaN = false) (hy : y.isNaN = false) : widen x ≤ widen y ↔ x ≤ y := by
  rw [le_iff_place (isNaN_widen hx) (isNaN_widen hy), place_widen hx, place_widen hy,
    Single.le_iff_place hx hy]

end

end CommonLut.Binary.Machine

namespace CommonLut.Scalar

/-! ## §8 Numbers in a linear order -/

variable {ω P : Type} [Scalar ω] [LinearOrder P]

/-- Numbers are compared like their places in a linear order. -/
structure Placed (IsNumber : ω → Prop) (place : ω → P) : Prop where
  lt_iff : ∀ {x y}, IsNumber x → IsNumber y → (x < y ↔ place x < place y)
  le_iff : ∀ {x y}, IsNumber x → IsNumber y → (x ≤ y ↔ place x ≤ place y)

namespace Placed

variable {IsNumber : ω → Prop} {place : ω → P} (h : Placed IsNumber place) {x y z : ω}
  (hx : IsNumber x) (hy : IsNumber y) (hz : IsNumber z)

include h hx hy

theorem not_lt : ¬ x < y ↔ y ≤ x := by
  rw [h.lt_iff hx hy, h.le_iff hy hx, lt_iff_not_ge, Classical.not_not]

theorem not_le : ¬ x ≤ y ↔ y < x := by
  rw [h.le_iff hx hy, h.lt_iff hy hx, lt_iff_not_ge]

theorem le_of_lt (hlt : x < y) : x ≤ y :=
  (h.le_iff hx hy).mpr ((h.lt_iff hx hy).mp hlt).le

include hz

theorem le_trans (hxy : x ≤ y) (hyz : y ≤ z) : x ≤ z :=
  (h.le_iff hx hz).mpr (((h.le_iff hx hy).mp hxy).trans ((h.le_iff hy hz).mp hyz))

theorem lt_of_lt_of_le (hlt : x < y) (hle : y ≤ z) : x < z :=
  (h.lt_iff hx hz).mpr (((h.lt_iff hx hy).mp hlt).trans_le ((h.le_iff hy hz).mp hle))

theorem lt_of_le_of_lt (hle : x ≤ y) (hlt : y < z) : x < z :=
  (h.lt_iff hx hz).mpr (((h.le_iff hx hy).mp hle).trans_lt ((h.lt_iff hy hz).mp hlt))

end Placed

theorem placed_double : Placed (fun x : Float => x.isNaN = false) Binary.Machine.place :=
  ⟨Binary.Machine.lt_iff_place, Binary.Machine.le_iff_place⟩

theorem placed_single : Placed (fun x : Float32 => x.isNaN = false)
    fun x => (Binary.single.decode x.toBits.toNat).place :=
  ⟨Binary.Machine.Single.compare_place, Binary.Machine.Single.le_iff_place⟩

end CommonLut.Scalar
