import CommonLut.Proofs.Binary.Order
import CommonLut.Proofs.SampleEncoding
import Mathlib.Data.Nat.Digits.Defs

/-!
# Spellings of a fixed width

Every encoding has a format: half, single or double precision. What the spelling of a sample is
read as is a value of that format, the sample itself when it is one already, and its spelling is
the same again. What is no number stays so. Hexadecimal spellings are as long as the format is
wide.

Main definitions: `SampleEncoding.format`, `SampleEncoding.hexadecimalDigits?`, `Double.IsValueOf`.
Main statements: `SampleEncoding.rounded_eq_iff`, `SampleEncoding.isNaN_rounded`,
`SampleEncoding.canonical_spelling`.
-/

namespace CommonLut

open Binary

/-! ## §1 Padded digits -/

namespace Text

/-- A padded number below the power of its width is exactly as long as the width. -/
theorem length_hexadecimal {width n : Nat} (hwidth : 0 < width) (hn : n < 16 ^ width) :
    (hexadecimal width n).length = width := by
  have hdigits : (Nat.toDigits 16 n).length ≤ width := Nat.toDigits_length 16 n width hwidth hn
  rw [hexadecimal, String.length_ofList, List.length_append, List.length_replicate]
  omega

/-- The digits that hexadecimal numbers are written with. -/
def lowerDigits : List Char := "0123456789abcdef".toList

theorem mem_lowerDigits_of_hexadecimal {width n : Nat} {c : Char}
    (hc : c ∈ (hexadecimal width n).toList) : c ∈ lowerDigits := by
  rw [hexadecimal, String.toList_ofList] at hc
  rcases List.mem_append.mp hc with h | h
  · rw [(List.mem_replicate.mp h).2]
    decide
  · have hdigit : ∀ d : Fin 16, d.val.digitChar ∈ lowerDigits := by decide
    obtain ⟨d, hd, rfl⟩ := exists_digitChar_of_mem_toDigits (by decide) h
    exact hdigit ⟨d, hd⟩

end Text

/-! ## §2 What is no number -/

namespace Binary

/-- What is no number. -/
def Datum.IsNaN (d : Datum) : Prop := ∃ s p, d = .nan s p

theorem Datum.Same.isNaN_iff {x y : Datum} (h : x.Same y) : x.IsNaN ↔ y.IsNaN := by
  cases x <;> cases y <;> simp_all [Datum.Same, Datum.IsNaN]

/-- Rounding neither makes nor unmakes numbers. -/
theorem Format.isNaN_decode_ofDatum (f : Format) {d : Datum} (hd : d.Fits) :
    (f.decode (f.ofDatum d)).IsNaN ↔ d.IsNaN := by
  cases d with
  | finite s m q =>
    obtain ⟨n, hn, hnearest⟩ := f.exists_nearest_eq s m 1 q
    refine iff_of_false ?_ (by rintro ⟨_, _, h⟩; cases h)
    rintro ⟨s', p, h⟩
    rw [ofDatum, hnearest] at h
    exact decode_withSign_ne_nan s hn s' p h
  | infinite s =>
    rw [ofDatum, decode_withSign_infinity]
  | nan s payload =>
    refine iff_of_true ?_ ⟨s, payload, rfl⟩
    rw [ofDatum, decode_withSign_nan s (f.quietBit_or_pos _) (quietBit_or_payload_lt hd)]
    exact ⟨s, _, rfl⟩

end Binary

namespace SampleEncoding

/-! ## §3 The format of an encoding -/

/-- The format whose values an encoding can hold. -/
def format : SampleEncoding → Format
  | integer16 | hex16 => half
  | integer32 | hex32 => single
  | text | integer64 | hex64 => double

/-- The number of digits in every spelling of a hexadecimal encoding. -/
def hexadecimalDigits? : SampleEncoding → Option Nat
  | hex16 => some 4
  | hex32 => some 8
  | hex64 => some 16
  | _ => none

end SampleEncoding

/-- A number that a pattern of a format stands for, with its sign. -/
def Double.IsValueOf (f : Format) (x : Double) : Prop :=
  ¬ x.IsNaN ∧ ∃ bits < f.patternCount, (f.decode bits).Same x.datum

/-- Every number is a value of the widest format. -/
theorem Double.isValueOf_double {x : Double} (hx : ¬ x.IsNaN) : x.IsValueOf double :=
  ⟨hx, x.bits.toNat, x.bits_lt, Datum.Same.refl _⟩

theorem Double.isValueOf_infinite {x : Double} {s : Bool} (hx : x.datum = .infinite s)
    (f : Format) : x.IsValueOf f := by
  have hsign := f.infinityBits_add_fieldUnit
  have hunit := f.fieldUnit_pos
  refine ⟨?_, f.withSign s f.infinityBits,
    Format.withSign_lt_patternCount s (by omega), ?_⟩
  · rintro ⟨_, _, hnan⟩
    rw [hx] at hnan
    cases hnan
  · rw [Format.decode_withSign_infinity, hx]
    exact Datum.Same.refl _

/-- Each format has both zeros. -/
theorem Double.isValueOf_zero {x : Double} {s : Bool} {e : Int} (hx : x.datum = .finite s 0 e)
    (f : Format) : x.IsValueOf f := by
  have hsign := f.infinityBits_add_fieldUnit
  have hunit := f.fieldUnit_pos
  refine ⟨?_, f.withSign s 0, Format.withSign_lt_patternCount s (by omega), ?_⟩
  · rintro ⟨_, _, hnan⟩
    rw [hx] at hnan
    cases hnan
  · rw [Format.decode_withSign_zero, hx]
    exact ⟨rfl, by simp⟩

namespace SampleEncoding

variable {f : Format} {bits : Nat} {x : Double}

/-- A number is the widened value of each pattern that stands for it. -/
theorem ofPattern_of_same (hbits : bits < f.patternCount) (hx : ¬ x.IsNaN)
    (hsame : x.datum.Same (f.decode bits)) : ofPattern f bits = x := by
  have hwide : f.precision ≤ double.precision := by cases f <;> decide
  have hdatum : double.ofDatum (f.decode bits) = x.bits.toNat := by
    rw [← Format.ofDatum_of_same hwide hbits hsame, Double.datum]
    exact Format.ofDatum_decode x.bits_lt fun s p h => hx ⟨s, p, h⟩
  rw [ofPattern, Double.ofDatum, hdatum, UInt64.ofNat_toNat]

/-- The pattern of a number that is a value of the format. -/
theorem pattern_of_same (hbits : bits < f.patternCount) (hx : ¬ x.IsNaN)
    (hsame : x.datum.Same (f.decode bits)) : pattern f x = bits := by
  have hnumber : ∀ s p, f.decode bits ≠ .nan s p := fun s p h =>
    hx (hsame.isNaN_iff.mpr ⟨s, p, h⟩)
  calc pattern f x = f.ofDatum (f.decode bits) := Format.ofDatum_of_same le_rfl hbits hsame
    _ = bits := Format.ofDatum_decode hbits hnumber

/-- Half values are singles, so the first narrowing does not change them. -/
theorem halfPattern_of_same (hbits : bits < half.patternCount) (hx : ¬ x.IsNaN)
    (hsame : x.datum.Same (half.decode bits)) : halfPattern x = bits := by
  have hnumber : ∀ s p, half.decode bits ≠ .nan s p := fun s p h =>
    hx (hsame.isNaN_iff.mpr ⟨s, p, h⟩)
  have hsingle : (single.decode (pattern single x)).Same (half.decode bits) :=
    Format.decode_ofDatum_same (by decide) hbits hsame
  calc halfPattern x = half.ofDatum (half.decode bits) :=
        Format.ofDatum_of_same le_rfl hbits hsingle
    _ = bits := Format.ofDatum_decode hbits hnumber

theorem isNaN_ofPattern (hbits : bits < f.patternCount) :
    (ofPattern f bits).IsNaN ↔ (f.decode bits).IsNaN :=
  (datum_ofPattern_same f hbits).isNaN_iff

theorem isNaN_pattern (f : Format) (x : Double) : (f.decode (pattern f x)).IsNaN ↔ x.IsNaN :=
  f.isNaN_decode_ofDatum (fits_datum x)

theorem isNaN_halfPattern (x : Double) : (half.decode (halfPattern x)).IsNaN ↔ x.IsNaN :=
  (half.isNaN_decode_ofDatum (Format.fits_decode (pattern_lt single x))).trans
    (isNaN_pattern single x)

/-! ## §4 What comes back -/

/-- Encodings give back numbers for numbers, and for nothing else. -/
theorem isNaN_rounded (e : SampleEncoding) (x : Double) : (e.rounded x).IsNaN ↔ x.IsNaN := by
  cases e with
  | text =>
    by_cases hx : x.IsNaN
    · refine iff_of_true ?_ hx
      exact ⟨false, double.quietBit, by rw [rounded, Double.settled_of_nan hx]; rfl⟩
    · rw [rounded, Double.settled_of_number hx]
  | integer16 | hex16 => exact (isNaN_ofPattern (halfPattern_lt x)).trans (isNaN_halfPattern x)
  | integer32 | hex32 =>
    exact (isNaN_ofPattern (pattern_lt single x)).trans (isNaN_pattern single x)
  | integer64 | hex64 => rfl

/-- A number comes back unchanged exactly if it is a value of the format. -/
theorem rounded_eq_iff (e : SampleEncoding) (hx : ¬ x.IsNaN) :
    e.rounded x = x ↔ x.IsValueOf e.format := by
  -- What a narrow encoding gives back is the widened value of a pattern.
  have hvalue : ∀ {f : Format} {bits : Nat}, bits < f.patternCount → ofPattern f bits = x →
      x.IsValueOf f := by
    intro f bits hbits heq
    refine ⟨hx, bits, hbits, ?_⟩
    rw [← heq]
    exact (datum_ofPattern_same f hbits).symm
  cases e with
  | text => exact iff_of_true (Double.settled_of_number hx) (Double.isValueOf_double hx)
  | integer64 | hex64 => exact iff_of_true rfl (Double.isValueOf_double hx)
  | integer16 | hex16 =>
    refine ⟨hvalue (halfPattern_lt x), ?_⟩
    rintro ⟨-, bits, hbits, hsame⟩
    show ofPattern half (halfPattern x) = x
    rw [halfPattern_of_same hbits hx hsame.symm]
    exact ofPattern_of_same hbits hx hsame.symm
  | integer32 | hex32 =>
    refine ⟨hvalue (pattern_lt single x), ?_⟩
    rintro ⟨-, bits, hbits, hsame⟩
    show ofPattern single (pattern single x) = x
    rw [pattern_of_same (f := single) hbits hx hsame.symm]
    exact ofPattern_of_same hbits hx hsame.symm

/-- A hexadecimal spelling has the digits of its format, all of them in lower case. -/
theorem hexadecimal_encode {e : SampleEncoding} {n : Nat} (he : e.hexadecimalDigits? = some n)
    (x : Double) : (e.encode x).length = n ∧ ∀ c ∈ (e.encode x).toList, c ∈ Text.lowerDigits := by
  -- Each spelling is a padded number, so it is enough that the pattern is below its bound.
  suffices hpadded : ∃ pattern < 16 ^ n, 0 < n ∧ e.encode x = Text.hexadecimal n pattern by
    obtain ⟨pattern, hlt, hpos, heq⟩ := hpadded
    rw [heq]
    exact ⟨Text.length_hexadecimal hpos hlt, fun c => Text.mem_lowerDigits_of_hexadecimal⟩
  cases e with
  | hex16 =>
    cases he
    exact ⟨halfPattern x, halfPattern_lt x, by decide, rfl⟩
  | hex32 =>
    cases he
    exact ⟨pattern single x, pattern_lt single x, by decide, rfl⟩
  | hex64 =>
    cases he
    exact ⟨x.bits.toNat, x.bits_lt, by decide, rfl⟩
  | text | integer16 | integer32 | integer64 => cases he

/-- Every sample is spelled so that it is read, as a sample with the same spelling: the very same
one if the format of the encoding has its value, which is so for every number in the exact
encodings and for infinities and zeros in all of them. -/
theorem canonical_spelling (e : SampleEncoding) (x : Double) :
    ∃ w, e.decode? (e.encode x) = some w ∧ e.encode w = e.encode x ∧
      (w.IsNaN ↔ x.IsNaN) ∧
      (¬ x.IsNaN → (w = x ↔ x.IsValueOf e.format)) ∧
      (¬ x.IsNaN → e.format = double → w = x) ∧
      (∀ s, x.datum = .infinite s → w = x) ∧
      (∀ s q, x.datum = .finite s 0 q → w = x) ∧
      (∀ n, e.hexadecimalDigits? = some n → (e.encode x).length = n ∧
        ∀ c ∈ (e.encode x).toList, c ∈ Text.lowerDigits) := by
  have hkept : x.IsValueOf e.format → e.rounded x = x := fun hx => (rounded_eq_iff e hx.1).mpr hx
  -- Infinities and zeros are values of every format, and all numbers of the widest.
  refine ⟨e.rounded x, e.decode?_encode_rounded x, e.encode_rounded x, e.isNaN_rounded x,
    rounded_eq_iff e, fun hx hformat => hkept ?_, fun s hx => hkept ?_, fun s q hx => hkept ?_,
    fun n he => hexadecimal_encode he x⟩
  · rw [hformat]
    exact Double.isValueOf_double hx
  · exact Double.isValueOf_infinite hx e.format
  · exact Double.isValueOf_zero hx e.format

/-- A third is spelled as a half pattern, and reading rounds it away for good. -/
example : hex16.encode (Double.ofDatum (.finite false 0x15555555555555 (-54))) = "3555" := by
  decide +kernel

end SampleEncoding

end CommonLut
