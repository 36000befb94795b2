import CommonLut.Proofs.Binary.Closest
import CommonLut.Proofs.Lookup.ArrayElement

/-!
# Samples spelled as half patterns

Two encodings spell half patterns, and a table of raw halfs does so whatever its encoding. All three
spell the same half value for a sample. The sample is rounded to single precision on the way: the
half value is a closest one to the single, and a closest one to the sample unless the single is half
way between two half values and the sample is on the side of the other.

Main definitions: `Double.IsFinite`, `Double.value`.
Main statements: `SampleEncoding.exists_roundings`, `SampleEncoding.half_spellings`.
-/

namespace CommonLut

open Binary

/-! ## §1 Finite samples -/

namespace Double

/-- A sample that is neither infinite nor no number. -/
def IsFinite (x : Double) : Prop := ∃ s m e, x.datum = .finite s m e

/-- The exact value, zero for what has none. -/
def value (x : Double) : ℚ := x.datum.value

end Double

namespace SampleEncoding

/-- A finite pattern is widened to a sample with its value. -/
theorem value_ofPattern {f : Format} {s : Bool} {m : Nat} {e : Int} (hc : f.Canonical m e) :
    (ofPattern f (f.withSign s (f.finiteBits m e))).IsFinite ∧
      (ofPattern f (f.withSign s (f.finiteBits m e))).value = (Datum.finite s m e).value := by
  have hsign : f.finiteBits m e < f.signBit := hc.finite.trans f.infinityBits_lt_signBit
  have hsame := datum_ofPattern_same f (Format.withSign_lt_patternCount s hsign)
  rw [Format.decode_withSign_finiteBits s hc] at hsame
  obtain ⟨m', e', hdatum⟩ := hsame.exists_finite
  exact ⟨⟨s, m', e', hdatum⟩, hsame.value_eq⟩

/-! ## §2 The two roundings -/

/-- The largest half value. -/
theorem canonical_half_largest : half.Canonical 2047 5 :=
  ⟨by decide, by decide, by decide, by decide⟩

/-- It is a single as well. -/
theorem canonical_single_largestHalf : single.Canonical (2047 * 2 ^ 13) (-8) :=
  ⟨by decide, by decide, by decide, by decide⟩

/-- A sample in the range of the half values is rounded to a closest single, and that to a closest
half value. -/
theorem exists_roundings {x : Double} (hx : x.IsFinite) (hrange : |x.value| < 65504) :
    (integer32.rounded x).IsFinite ∧ single.Closest x.value (integer32.rounded x).value ∧
      (integer16.rounded x).IsFinite ∧
      half.Closest (integer32.rounded x).value (integer16.rounded x).value := by
  obtain ⟨s, m, q, hdatum⟩ := hx
  have hvalue : x.value = (Datum.finite s m q).value := congrArg Datum.value hdatum
  have hmagnitude : (m * 2 ^ q : ℚ) < 65504 := by
    rwa [hvalue, Datum.value, abs_signed, abs_of_nonneg (by positivity)] at hrange
  have hlargest : ((2047 * 2 ^ 13 : Nat) * 2 ^ (-8 : Int) : ℚ) = 65504 := by norm_num
  -- The bound is a single and a half value, so neither rounding goes past it.
  obtain ⟨m₁, e₁, hc₁, hfirst, hle₁, hclosest₁⟩ :=
    Format.exists_closest s canonical_single_largestHalf (hmagnitude.le.trans hlargest.ge)
  have hhalf : (m₁ * 2 ^ e₁ : ℚ) ≤ (2047 : Nat) * 2 ^ (5 : Int) :=
    hle₁.trans (hlargest.le.trans (by norm_num))
  obtain ⟨m₂, e₂, hc₂, hsecond, -, hclosest₂⟩ :=
    Format.exists_closest s canonical_half_largest hhalf
  have hpattern : pattern single x = single.withSign s (single.finiteBits m₁ e₁) := by
    rw [← hfirst, ← hdatum]
    rfl
  have hhalfPattern : halfPattern x = half.withSign s (half.finiteBits m₂ e₂) := by
    rw [halfPattern, hpattern, Format.convert, Format.decode_withSign_finiteBits s hc₁, hsecond]
  obtain ⟨hfinite₁, hvalue₁⟩ := value_ofPattern (s := s) hc₁
  obtain ⟨hfinite₂, hvalue₂⟩ := value_ofPattern (s := s) hc₂
  rw [← hpattern] at hfinite₁ hvalue₁
  rw [← hhalfPattern] at hfinite₂ hvalue₂
  rw [← hvalue, ← hvalue₁] at hclosest₁
  rw [← hvalue₁, ← hvalue₂] at hclosest₂
  exact ⟨hfinite₁, hclosest₁, hfinite₂, hclosest₂⟩

/-! ## §3 Spellings -/

/-- In the range of the half values, whatever spells a sample as a half pattern spells a closest
half value to the single that is closest to the sample. That is a closest half value to the sample
itself unless the single is half way to another half value and the sample is on that one's side. -/
theorem half_spellings {x : Double} (hx : x.IsFinite) (hrange : |x.value| < 65504) :
    ∃ narrowed w : Double,
      integer32.decode? (integer32.encode x) = some narrowed ∧
      integer16.decode? (integer16.encode x) = some w ∧
      hex16.decode? (hex16.encode x) = some w ∧
      (∀ a : SampleArray Double, a.rawHalfs = true → decodeHalf? (a.spell x) = some w) ∧
      narrowed.IsFinite ∧ single.Closest x.value narrowed.value ∧
      w.IsFinite ∧ half.Closest narrowed.value w.value ∧
      (half.Closest x.value w.value ↔
        ∀ u, half.IsValue u → narrowed.value - w.value = u - narrowed.value →
          (x.value - narrowed.value) * (u - narrowed.value) ≤ 0) := by
  obtain ⟨hnarrowed, hfirst, hw, hsecond⟩ := exists_roundings hx hrange
  refine ⟨integer32.rounded x, integer16.rounded x, decode?_encode_rounded _ x,
    decode?_encode_rounded _ x, decode?_encode_rounded hex16 x, fun a ha => ?_, hnarrowed, hfirst,
    hw, hsecond, hfirst.twice_iff hsecond⟩
  rw [SampleArray.spell, if_pos ha]
  exact decode?_encode_rounded integer16 x

/-- One, half the gap to the next half value above it, and a little that a single does not hold. -/
def justAboveTie : Double := ⟨0x3ff0020000001000⟩

theorem datum_justAboveTie :
    justAboveTie.datum = .finite false 0x10020000001000 (-52) := by decide

theorem value_justAboveTie : justAboveTie.value = 1 + 1 / 2 ^ 11 + 1 / 2 ^ 40 := by
  rw [Double.value, datum_justAboveTie]
  norm_num [Datum.value, signed]

theorem half_spellings_justAboveTie :
    justAboveTie.IsFinite ∧ |justAboveTie.value| < 65504 ∧ ∃ narrowed w : Double,
      integer32.decode? (integer32.encode justAboveTie) = some narrowed ∧
      integer16.decode? (integer16.encode justAboveTie) = some w ∧
      (half.Closest justAboveTie.value w.value ↔
        ∀ u, half.IsValue u → narrowed.value - w.value = u - narrowed.value →
          (justAboveTie.value - narrowed.value) * (u - narrowed.value) ≤ 0) := by
  have hfinite : justAboveTie.IsFinite := ⟨_, _, _, datum_justAboveTie⟩
  have hrange : |justAboveTie.value| < 65504 := by
    rw [value_justAboveTie, abs_of_pos (by norm_num)]
    norm_num
  obtain ⟨narrowed, w, h32, h16, -, -, -, -, -, -, hiff⟩ := half_spellings hfinite hrange
  exact ⟨hfinite, hrange, narrowed, w, h32, h16, hiff⟩

/-- The single is half way between two half values, the one that is spelled is the even one, and the
sample is closer to the other. -/
theorem exists_closer_half :
    justAboveTie.IsFinite ∧ |justAboveTie.value| < 65504 ∧
      hex16.encode justAboveTie = "3c00" ∧
      ∃ w, integer16.decode? (integer16.encode justAboveTie) = some w ∧
        ∃ u, half.IsValue u ∧ |justAboveTie.value - u| < |justAboveTie.value - w.value| := by
  have hdecode : half.decode 0x3c00 = .finite false 1024 (-10) := by decide
  have hnext : half.decode 0x3c01 = .finite false 1025 (-10) := by decide
  have hpattern : halfPattern justAboveTie = 0x3c00 := by decide +kernel
  have hone : (integer16.rounded justAboveTie).value = 1 := by
    have hsame := datum_ofPattern_same half (halfPattern_lt justAboveTie)
    rw [hpattern, hdecode] at hsame
    have hvalue := hsame.value_eq
    rw [← hpattern] at hvalue
    exact hvalue.trans (by norm_num [Datum.value, signed])
  refine ⟨⟨_, _, _, datum_justAboveTie⟩, ?_, ?_, integer16.rounded justAboveTie,
    decode?_encode_rounded _ _, 1 + 1 / 2 ^ 10, ⟨0x3c01, by decide, _, _, _, hnext, ?_⟩, ?_⟩
  · rw [value_justAboveTie, abs_of_pos (by norm_num)]
    norm_num
  · rw [encode, hpattern]
    decide
  · rw [hnext]
    norm_num [Datum.value, signed]
  · rw [hone, value_justAboveTie, abs_of_neg (by norm_num), abs_of_pos (by norm_num)]
    norm_num

end SampleEncoding

end CommonLut
