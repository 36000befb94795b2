import CommonLut.Binary.Format
import CommonLut.Text.Digits

/-!
# Decimal numerals

The grammar of a number in a document. An optional sign is followed by digits with at most one
point and at least one digit, then optionally by `e` or `E` with a signed whole exponent; or the
sign is followed by one of the words `inf`, `infinity` and `nan` in any case. A numeral is read
exactly, as an integer times a power of ten, and only then rounded to a binary format.

Main definitions: `Numeral`, `Numeral.read?`, `Numeral.nearest`, `nearest?`, `float64?`, `float32?`.
-/

namespace CommonLut.Text

/-- An exactly read numeral. The finite value is `±digits * 10 ^ scale`. -/
inductive Numeral where
  | finite (negative : Bool) (digits : Nat) (scale : Int)
  | infinite (negative : Bool)
  | nan (negative : Bool)
deriving DecidableEq, Repr

namespace Numeral

/-! ## §1 The grammar -/

/-- Splits an optional sign off; the flag says whether it was a minus sign. -/
def splitSign : List Char → Bool × List Char
  | '-' :: rest => (true, rest)
  | '+' :: rest => (false, rest)
  | rest => (false, rest)

/-- The numbers that are spelled by a word. -/
def word? (negative : Bool) (s : List Char) : Option Numeral :=
  let lower := s.map Char.toLower
  if lower = "inf".toList ∨ lower = "infinity".toList then some (.infinite negative)
  else if lower = "nan".toList then some (.nan negative)
  else none

/-- The exponent that may follow the digits: nothing at all, or `e` with a signed number. -/
def exponent? : List Char → Option Int
  | [] => some 0
  | c :: rest =>
    if c = 'e' ∨ c = 'E' then
      let (negative, digits) := splitSign rest
      if digits.isEmpty then none
      else (ofDigits? 10 digits).map fun n => if negative then -(n : Int) else n
    else none

/-- Digits with at most one point and at least one digit, and the exponent after them. -/
def magnitude? (negative : Bool) (s : List Char) : Option Numeral := do
  let (whole, afterWhole) := s.span Char.isDigit
  let (fraction, rest) :=
    match afterWhole with
    | '.' :: more => more.span Char.isDigit
    | rest => ([], rest)
  if whole.isEmpty && fraction.isEmpty then none
  else
    let digits ← ofDigits? 10 (whole ++ fraction)
    let exponent ← exponent? rest
    return .finite negative digits (exponent - fraction.length)

/-- Reads a numeral. -/
def read? (s : List Char) : Option Numeral :=
  let (negative, rest) := splitSign s
  (word? negative rest).or (magnitude? negative rest)

/-! ## §2 Rounding to a binary format -/

/-- The powers of ten outside which every value of a format up to sixty-four bits is infinite or
zero. -/
def scaleLimit : Int := 400

/-- The pattern nearest to a numeral. A magnitude far outside every format is recognised by its
scale, so that no power of ten is formed for it. -/
def nearest (f : Binary.Format) : Numeral → Nat
  | .finite negative digits scale =>
    let leading : Int := scale + (Nat.toDigits 10 digits).length
    if digits = 0 ∨ leading < -scaleLimit then f.withSign negative 0
    else if scaleLimit < leading then f.withSign negative f.infinityBits
    else f.nearest negative (digits * Nat.pow 10 scale.toNat) (Nat.pow 10 (-scale).toNat) 0
  | .infinite negative => f.ofDatum (.infinite negative)
  | .nan negative => f.ofDatum (.nan negative 0)

end Numeral

/-- The pattern nearest to the numeral that a text spells. -/
def nearest? (f : Binary.Format) (s : String) : Option Nat :=
  (Numeral.read? s.toList).map fun n => n.nearest f

/-- The double nearest to the numeral that a text spells. -/
def float64? (s : String) : Option Float :=
  (nearest? Binary.double s).map fun bits => Float.ofBits (UInt64.ofNat bits)

/-- The single-precision value nearest to the numeral that a text spells. -/
def float32? (s : String) : Option Float32 :=
  (nearest? Binary.single s).map fun bits => Float32.ofBits (UInt32.ofNat bits)

end CommonLut.Text
