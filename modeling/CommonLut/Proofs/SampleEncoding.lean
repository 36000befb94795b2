import CommonLut.Markup.Element
import CommonLut.Proofs.Binary.Machine
import CommonLut.Proofs.Binary.Narrowing
import CommonLut.Proofs.Text.Numeral
import CommonLut.SampleEncoding

/-!
# Samples and parameters read back

A parameter is a machine double and is written as a decimal number, from which the same double is
read. A sample is a pattern. An encoding spells every sample as a word that it reads again; a narrow
one rounds the sample, and what it has rounded it does not change any more. A sample that was read
in the encoding is rounded already: it comes back with the same value and the same spelling, and
even the same pattern, except that a decimal number cannot tell apart the patterns that are no
numbers.

Main definitions: `SampleEncoding.rounded`, `SampleEncoding.respelled`.
Main statements: `Element.number?_format64`, `SampleEncoding.decode?_encode_rounded`,
`SampleEncoding.encode_rounded`, `SampleEncoding.decode?_encode`,
`SampleEncoding.encode_respelled`.
-/

namespace CommonLut

open Binary

/-! ## §1 Parameters -/

/-- What a pattern stands for is no number. -/
def Double.IsNaN (x : Double) : Prop := ∃ s p, x.datum = .nan s p

theorem Double.bits_lt (x : Double) : x.bits.toNat < double.patternCount := x.bits.toNat_lt

/-- A pattern as it is after a passage through the machine type. -/
def Double.settled (x : Double) : Double := ofFloat x.toFloat

theorem Double.settled_of_number {x : Double} (hx : ¬ x.IsNaN) : x.settled = x := by
  have hbits : (Float.ofBits x.bits).toBits = x.bits :=
    Machine.toBits_ofBits fun s p h => hx ⟨s, p, h⟩
  show (⟨(Float.ofBits x.bits).toBits⟩ : Double) = x
  rw [hbits]

theorem Double.settled_of_nan {x : Double} (hx : x.IsNaN) : x.settled = ⟨Machine.quietNaN⟩ := by
  obtain ⟨s, p, hx⟩ := hx
  exact congrArg Double.mk (Machine.toBits_ofBits_of_nan hx)

@[simp]
theorem Double.toFloat_settled (x : Double) : x.settled.toFloat = x.toFloat :=
  x.toFloat.ofBits_toBits

/-- The text of a pattern reads as the settled pattern. -/
theorem nearest?_datum (x : Double) :
    (Text.nearest? double (Text.shortest double x.datum)).map
      (fun bits => (⟨UInt64.ofNat bits⟩ : Double)) = some x.settled := by
  by_cases hx : x.IsNaN
  · obtain ⟨s, p, hdatum⟩ := hx
    rw [Double.settled_of_nan ⟨s, p, hdatum⟩, hdatum, Text.nearest?_shortest_nan]
    rfl
  · rw [Double.settled_of_number hx]
    have hread := Text.nearest?_shortest x.bits_lt fun s p h => hx ⟨s, p, h⟩
    rw [show x.datum = double.decode x.bits.toNat from rfl, hread, Option.map_some,
      UInt64.ofNat_toNat]

theorem Text.isWord_format64 (x : Float) : Text.IsWord (Text.format64 x) :=
  Text.isWord_shortest double _

/-- A number reads back as itself. -/
theorem Element.number?_format64 (x : Float) : Element.number? (Text.format64 x) = some x := by
  have hread := nearest?_datum (Double.ofFloat x)
  have hsettled : (Double.ofFloat x).settled = Double.ofFloat x :=
    congrArg Double.ofFloat x.ofBits_toBits
  rw [Element.number?, Text.trim_word (Text.isWord_format64 x), Text.float64?]
  rw [hsettled] at hread
  have hmap := congrArg (Option.map Double.toFloat) hread
  rw [Option.map_map, Option.map_some] at hmap
  exact hmap.trans (congrArg some x.ofBits_toBits)

namespace SampleEncoding

/-! ## §2 Narrow patterns -/

theorem toNat_ofPattern (f : Format) {bits : Nat} (hbits : bits < f.patternCount) :
    (ofPattern f bits).bits.toNat = double.ofDatum (f.decode bits) := by
  have hwide : f.precision ≤ double.precision := by cases f <;> decide
  exact UInt64.toNat_ofNat_of_lt'
    (Format.ofDatum_lt_patternCount hwide hbits (Datum.Same.refl _))

/-- The datum of a widened pattern. -/
theorem datum_ofPattern_same (f : Format) {bits : Nat} (hbits : bits < f.patternCount) :
    (ofPattern f bits).datum.Same (f.decode bits) := by
  have hwide : f.precision ≤ double.precision := by cases f <;> decide
  rw [Double.datum, toNat_ofPattern f hbits]
  exact Format.decode_ofDatum_same hwide hbits (Datum.Same.refl _)

/-- A widened pattern is narrowed to the pattern that it came from, made quiet. -/
theorem pattern_ofPattern (f : Format) {bits : Nat} (hbits : bits < f.patternCount) :
    pattern f (ofPattern f bits) = f.ofDatum (f.decode bits) :=
  Format.ofDatum_of_same (Nat.le_refl _) hbits (datum_ofPattern_same f hbits)

theorem halfPattern_ofPattern {bits : Nat} (hbits : bits < half.patternCount) :
    halfPattern (ofPattern half bits) = half.ofDatum (half.decode bits) :=
  Format.ofDatum_of_same (Nat.le_refl _) hbits <|
    Format.decode_ofDatum_same (by decide) hbits (datum_ofPattern_same half hbits)

/-- A pattern made quiet is widened to the same sample. -/
theorem ofPattern_quiet (f : Format) {bits : Nat} (hbits : bits < f.patternCount) :
    ofPattern f (f.ofDatum (f.decode bits)) = ofPattern f bits := by
  have hwide : f.precision ≤ double.precision := by cases f <;> decide
  have hsame : (f.decode (f.ofDatum (f.decode bits))).Same (f.decode bits) :=
    Format.decode_ofDatum_same (Nat.le_refl _) hbits (Datum.Same.refl _)
  unfold ofPattern Double.ofDatum
  rw [Format.ofDatum_of_same hwide hbits hsame]

theorem fits_datum (x : Double) : x.datum.Fits := Format.fits_decode x.bits_lt

theorem pattern_lt (f : Format) (x : Double) : pattern f x < f.patternCount :=
  Format.ofDatum_lt_of_fits (fits_datum x)

theorem halfPattern_lt (x : Double) : halfPattern x < half.patternCount :=
  Format.ofDatum_lt_of_fits (Format.fits_decode (pattern_lt single x))

/-- A rounded sample has the pattern that it was rounded to. -/
theorem pattern_ofPattern_pattern (f : Format) (x : Double) :
    pattern f (ofPattern f (pattern f x)) = pattern f x := by
  rw [pattern_ofPattern f (pattern_lt f x)]
  exact Format.ofDatum_decode_ofDatum (fits_datum x)

theorem halfPattern_ofPattern_halfPattern (x : Double) :
    halfPattern (ofPattern half (halfPattern x)) = halfPattern x := by
  rw [halfPattern_ofPattern (halfPattern_lt x)]
  exact Format.ofDatum_decode_ofDatum (Format.fits_decode (pattern_lt single x))

/-! ## §3 Every sample -/

/-- A sample as an encoding gives it back. -/
def rounded : SampleEncoding → Double → Double
  | text, x => x.settled
  | integer16, x | hex16, x => ofPattern half (halfPattern x)
  | integer32, x | hex32, x => ofPattern single (pattern single x)
  | integer64, x | hex64, x => x

/-- The encodings that round no number. -/
def exact : List SampleEncoding := [text, integer64, hex64]

/-- Every sample is spelled as a word that is read as the rounded sample. -/
theorem decode?_encode_rounded (e : SampleEncoding) (x : Double) :
    e.decode? (e.encode x) = some (e.rounded x) := by
  have hdecimal : ∀ {bound n : Nat} (read : Nat → Double), n < bound →
      (Text.natural? 10 bound (Text.decimal n)).map read = some (read n) := by
    intro bound n read hn
    rw [Text.natural?_decimal hn, Option.map_some]
  have hhexadecimal : ∀ {bound n : Nat} (width : Nat) (read : Nat → Double), n < bound →
      (Text.natural? 16 bound (Text.hexadecimal width n)).map read = some (read n) := by
    intro bound n width read hn
    rw [Text.natural?_hexadecimal hn, Option.map_some]
  -- The patterns of doubles are the samples themselves, so nothing is widened.
  have hwhole : (⟨UInt64.ofNat x.bits.toNat⟩ : Double) = x := by rw [UInt64.ofNat_toNat]
  cases e with
  | text => exact nearest?_datum x
  | integer16 => exact hdecimal _ (halfPattern_lt x)
  | integer32 => exact hdecimal _ (pattern_lt single x)
  | integer64 => exact (hdecimal _ x.bits_lt).trans (congrArg some hwhole)
  | hex16 => exact hhexadecimal 4 _ (halfPattern_lt x)
  | hex32 => exact hhexadecimal 8 _ (pattern_lt single x)
  | hex64 => exact (hhexadecimal 16 _ x.bits_lt).trans (congrArg some hwhole)

/-- The rounded sample is spelled in the same way. -/
theorem encode_rounded (e : SampleEncoding) (x : Double) :
    e.encode (e.rounded x) = e.encode x := by
  cases e with
  | text =>
    show Text.shortest double x.settled.datum = Text.shortest double x.datum
    by_cases hx : x.IsNaN
    · obtain ⟨s, p, hdatum⟩ := hx
      rw [Double.settled_of_nan ⟨s, p, hdatum⟩, hdatum]
      rfl
    · rw [Double.settled_of_number hx]
  | integer16 => exact congrArg Text.decimal (halfPattern_ofPattern_halfPattern x)
  | integer32 => exact congrArg Text.decimal (pattern_ofPattern_pattern single x)
  | hex16 => exact congrArg (Text.hexadecimal 4) (halfPattern_ofPattern_halfPattern x)
  | hex32 => exact congrArg (Text.hexadecimal 8) (pattern_ofPattern_pattern single x)
  | integer64 | hex64 => rfl

/-- Rounding once is enough. -/
theorem rounded_rounded (e : SampleEncoding) (x : Double) :
    e.rounded (e.rounded x) = e.rounded x := by
  have h := e.decode?_encode_rounded (e.rounded x)
  rw [encode_rounded, decode?_encode_rounded] at h
  exact (Option.some.inj h).symm

/-- Of an exact encoding at most the pattern of what is no number comes back changed. -/
theorem rounded_of_exact {e : SampleEncoding} (he : e ∈ exact) (x : Double) :
    e.rounded x = x ∨ x.IsNaN ∧ (e.rounded x).IsNaN := by
  rcases List.mem_cons.mp he with rfl | he
  · by_cases hx : x.IsNaN
    · exact .inr ⟨hx, false, double.quietBit, by rw [rounded, Double.settled_of_nan hx]; rfl⟩
    · exact .inl (Double.settled_of_number hx)
  · have hsame : ∀ e ∈ [integer64, hex64], e.rounded x = x := by simp [rounded]
    exact .inl (hsame e he)

theorem toFloat_rounded {e : SampleEncoding} (he : e ∈ exact) (x : Double) :
    (e.rounded x).toFloat = x.toFloat := by
  rcases List.mem_cons.mp he with rfl | he
  · exact x.toFloat_settled
  · have hsame : ∀ e ∈ [integer64, hex64], e.rounded x = x := by simp [rounded]
    rw [hsame e he]

theorem isWord_encode (e : SampleEncoding) (x : Double) : Text.IsWord (e.encode x) := by
  cases e with
  | text => exact Text.isWord_shortest double x.datum
  | integer16 | integer32 | integer64 => exact Text.isWord_decimal _
  | hex16 | hex32 | hex64 => exact Text.isWord_hexadecimal _ _

/-! ## §4 Samples that were read -/

/-- A sample as its spelling gives it back. -/
def respelled (e : SampleEncoding) (x : Double) : Double :=
  if e = text then x.settled else x

@[simp]
theorem toFloat_respelled (e : SampleEncoding) (x : Double) :
    (e.respelled x).toFloat = x.toFloat := by
  unfold respelled
  split
  · exact x.toFloat_settled
  · rfl

/-- A sample that has been spelled and read is spelled in the same way again. -/
theorem encode_respelled (e : SampleEncoding) (x : Double) :
    e.encode (e.respelled x) = e.encode x := by
  cases e with
  | text => exact encode_rounded text x
  | integer16 | integer32 | integer64 | hex16 | hex32 | hex64 => rfl

/-- What is read back of a rounded sample is the rounded sample. -/
theorem respelled_rounded (e : SampleEncoding) (x : Double) :
    e.respelled (e.rounded x) = e.rounded x := by
  cases e with
  | text => exact rounded_rounded text x
  | integer16 | integer32 | integer64 | hex16 | hex32 | hex64 => rfl

/-- The number that a reader of patterns gives is below its bound. -/
theorem natural?_lt {radix bound n : Nat} {s : String} (h : Text.natural? radix bound s = some n) :
    n < bound := by
  have hbare : ∀ digits, Text.bareNatural? radix bound digits = some n → n < bound := by
    intro digits h
    unfold Text.bareNatural? at h
    split at h
    · cases h
    · exact of_decide_eq_true (Option.filter_eq_some_iff.mp h).2
  unfold Text.natural? at h
  split at h
  · exact hbare _ h
  · exact hbare _ h

/-- A sample that was read in a narrow encoding is rounded already. -/
theorem rounded_of_decode? {e : SampleEncoding} {word : String} {x : Double}
    (h : e.decode? word = some x) : e.rounded x = e.respelled x := by
  -- It is the widened value of the pattern that was read.
  have hnarrow : ∀ f : Format, ∀ radix, (Text.natural? radix f.patternCount word).map
      (ofPattern f) = some x → ∃ bits < f.patternCount, x = ofPattern f bits := by
    intro f radix h
    obtain ⟨bits, hbits, rfl⟩ := Option.map_eq_some_iff.mp h
    exact ⟨bits, natural?_lt hbits, rfl⟩
  cases e with
  | text | integer64 | hex64 => rfl
  | integer16 | hex16 =>
    obtain ⟨bits, hlt, rfl⟩ := hnarrow half _ h
    show ofPattern half (halfPattern (ofPattern half bits)) = ofPattern half bits
    rw [halfPattern_ofPattern hlt, ofPattern_quiet half hlt]
  | integer32 | hex32 =>
    obtain ⟨bits, hlt, rfl⟩ := hnarrow single _ h
    show ofPattern single (pattern single (ofPattern single bits)) = ofPattern single bits
    rw [pattern_ofPattern single hlt, ofPattern_quiet single hlt]

/-- A sample that was read in an encoding is spelled so that it reads back. -/
theorem decode?_encode {e : SampleEncoding} {word : String} {x : Double}
    (h : e.decode? word = some x) : e.decode? (e.encode x) = some (e.respelled x) := by
  rw [decode?_encode_rounded, rounded_of_decode? h]

/-- A table of half patterns reads and spells them as the narrowest encoding does. -/
theorem decodeHalf?_halfPattern {word : String} {x : Double} (h : decodeHalf? word = some x) :
    decodeHalf? (Text.decimal (halfPattern x)) = some x :=
  decode?_encode (e := integer16) h

end SampleEncoding

end CommonLut
