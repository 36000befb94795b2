import CommonLut.Binary.Double
import CommonLut.Text.Numeral
import CommonLut.Text.Shortest

/-!
# Sample encodings

How the samples of an array are spelled in a document: as decimal numbers, or as the bit pattern of
the value in one of three widths, in decimal or in hexadecimal digits. A narrow encoding rounds the
sample first.

Main definitions: `SampleEncoding`, `SampleEncoding.encode`, `SampleEncoding.decode?`.
-/

namespace CommonLut

/-- Decimal numbers, or bit patterns of a width in decimal or hexadecimal digits. -/
inductive SampleEncoding where
  | text
  | integer16
  | integer32
  | integer64
  | hex16
  | hex32
  | hex64
deriving DecidableEq, Repr, Inhabited

namespace SampleEncoding

/-! ## §1 Tokens -/

/-- The encodings that spell bit patterns. -/
def binary : List SampleEncoding := [integer16, integer32, integer64, hex16, hex32, hex64]

/-- The name of an encoding. -/
def token : SampleEncoding → String
  | text => "text"
  | integer16 => "integer16bit"
  | integer32 => "integer32bit"
  | integer64 => "integer64bit"
  | hex16 => "hex16bit"
  | hex32 => "hex32bit"
  | hex64 => "hex64bit"

/-- The value of the attribute that announces an encoding; decimal numbers need none. -/
def announcement? : SampleEncoding → Option String
  | text => none
  | e => some e.token

/-- The encoding with a name; the empty name stands for decimal numbers. -/
def ofToken? (s : String) : Option SampleEncoding :=
  if s = "" then some text else (text :: binary).find? fun e => e.token == s

/-! ## §2 Spelling samples -/

open Binary

/-- The pattern nearest to a sample in a format. -/
def pattern (f : Format) (x : Double) : Nat := double.convert f x.bits.toNat

/-- The sample with a pattern of a format. -/
def ofPattern (f : Format) (bits : Nat) : Double := Double.ofDatum (f.decode bits)

/-- The half pattern of a sample, which is narrowed to single precision on the way. -/
def halfPattern (x : Double) : Nat := single.convert half (pattern single x)

/-- The spelling of a sample. -/
def encode (e : SampleEncoding) (x : Double) : String :=
  match e with
  | text => Text.shortest double x.datum
  | integer16 => Text.decimal (halfPattern x)
  | integer32 => Text.decimal (pattern single x)
  | integer64 => Text.decimal x.bits.toNat
  | hex16 => Text.hexadecimal 4 (halfPattern x)
  | hex32 => Text.hexadecimal 8 (pattern single x)
  | hex64 => Text.hexadecimal 16 x.bits.toNat

/-- The sample that a word spells as a half pattern in decimal digits. -/
def decodeHalf? (word : String) : Option Double :=
  (Text.natural? 10 half.patternCount word).map (ofPattern half)

/-- The sample that a word spells. -/
def decode? (e : SampleEncoding) (word : String) : Option Double :=
  match e with
  | text => (Text.nearest? double word).map fun bits => ⟨UInt64.ofNat bits⟩
  | integer16 => decodeHalf? word
  | integer32 => (Text.natural? 10 single.patternCount word).map (ofPattern single)
  | integer64 => (Text.natural? 10 double.patternCount word).map fun bits => ⟨UInt64.ofNat bits⟩
  | hex16 => (Text.natural? 16 half.patternCount word).map (ofPattern half)
  | hex32 => (Text.natural? 16 single.patternCount word).map (ofPattern single)
  | hex64 => (Text.natural? 16 double.patternCount word).map fun bits => ⟨UInt64.ofNat bits⟩

end SampleEncoding

end CommonLut
