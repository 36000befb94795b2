/-!
# Binary interchange formats

The binary floating-point formats of three widths. Bit patterns are natural numbers.
`Format.decode` splits a pattern into sign, significand and exponent exactly, and `Format.nearest`
is the pattern of the value nearest to a quotient, ties going to the even significand. Both work in
exact arithmetic on natural numbers.

A pattern that is no number carries a sign and a payload, its fraction field. Both survive the
passage to another format, as far as the field there is wide enough, and the result is always a
quiet one: the leading bit of its fraction field is set.

Consecutive finite patterns of one sign are consecutive values, so the pattern of `m * 2 ^ q` is
`m + (q - least exponent) * 2 ^ (precision - 1)` whether `m` is normal, subnormal or has just been
rounded up to the next power of two.

Main definitions: `Format`, `Format.decode`, `Format.nearest`, `Format.ofDatum`, `Datum.floor`,
`Datum.round`, `Datum.toInt`, and the formats `half`, `single` and `double`.
-/

namespace CommonLut.Binary

/-! ## §1 Formats and data -/

/-- The binary formats of sixteen, thirty-two and sixty-four bits. -/
inductive Format where
  | half
  | single
  | double
deriving DecidableEq, Repr

export Format (half single double)

/-- What a bit pattern stands for. The finite value is `±significand * 2 ^ exponent`. The payload of
what is no number is scaled to the fraction field of the widest format. -/
inductive Datum where
  | finite (negative : Bool) (significand : Nat) (exponent : Int)
  | infinite (negative : Bool)
  | nan (negative : Bool) (payload : Nat)
deriving DecidableEq, Repr

namespace Format

/-- The number of bits in a significand, the leading one included, which is not stored. -/
def precision : Format → Nat
  | half => 11
  | single => 24
  | double => 53

/-- The exponent of the smallest positive value. -/
def leastExponent : Format → Int
  | half => -24
  | single => -149
  | double => -1074

/-- The weight of the exponent field, `2 ^ (precision - 1)`. -/
def fieldUnit : Format → Nat
  | half => 0x400
  | single => 0x800000
  | double => 0x10000000000000

/-- The pattern of positive infinity, whose exponent field is full. -/
def infinityBits : Format → Nat
  | half => 0x7c00
  | single => 0x7f800000
  | double => 0x7ff0000000000000

/-- The pattern of the sign. -/
def signBit : Format → Nat
  | half => 0x8000
  | single => 0x80000000
  | double => 0x8000000000000000

/-- The number of patterns. -/
def patternCount (f : Format) : Nat := 2 * f.signBit

/-- The weight of the lowest fraction bit in a payload. -/
def payloadUnit (f : Format) : Nat := double.fieldUnit / f.fieldUnit

/-- The leading bit of the fraction field, which is set in what is quietly no number. -/
def quietBit (f : Format) : Nat := f.fieldUnit / 2

/-! ## §2 Decoding -/

/-- What a pattern stands for. -/
def decode (f : Format) (bits : Nat) : Datum :=
  let negative := decide (f.signBit ≤ bits)
  let magnitude := if negative then bits - f.signBit else bits
  let field := magnitude / f.fieldUnit
  let fraction := magnitude % f.fieldUnit
  if f.infinityBits ≤ magnitude then
    if magnitude = f.infinityBits then .infinite negative
    else .nan negative (fraction * f.payloadUnit)
  else if field = 0 then .finite negative fraction f.leastExponent
  else .finite negative (fraction + f.fieldUnit) (f.leastExponent + (field - 1 : Nat))

/-! ## §3 Rounding to nearest -/

/-- A quotient rounded to the nearest natural number, a half going to the even one. -/
def divideToEven (n d : Nat) : Nat :=
  let q := n / d
  let r := n % d
  if 2 * r < d then q
  else if d < 2 * r then q + 1
  else q + q % 2

/-- The largest exponent `e` with `2 ^ e ≤ n / d`, for positive `n` and `d`. -/
def binaryExponent (n d : Nat) : Int :=
  let e : Int := (n.log2 : Int) - d.log2
  if d <<< e.toNat ≤ n <<< (-e).toNat then e else e - 1

/-- A pattern with the sign set for a negative value. -/
def withSign (f : Format) (negative : Bool) (bits : Nat) : Nat :=
  if negative then f.signBit + bits else bits

/-- The pattern nearest to `±n / d * 2 ^ q`, a tie going to the even one and a value past the
largest finite one going to infinity. -/
def nearest (f : Format) (negative : Bool) (n d : Nat) (q : Int) : Nat :=
  if n = 0 then f.withSign negative 0
  else
    let last := max (binaryExponent n d + q + 1 - f.precision) f.leastExponent
    let m := divideToEven (n <<< (q - last).toNat) (d <<< (last - q).toNat)
    let bits := m + (last - f.leastExponent).toNat * f.fieldUnit
    f.withSign negative (min bits f.infinityBits)

/-- The pattern nearest to a datum. -/
def ofDatum (f : Format) : Datum → Nat
  | .finite negative m q => f.nearest negative m 1 q
  | .infinite negative => f.withSign negative f.infinityBits
  | .nan negative payload =>
    f.withSign negative (f.infinityBits + (f.quietBit ||| payload / f.payloadUnit))

/-- The pattern of `f` nearest to the value of a pattern of `g`. -/
def convert (g f : Format) (bits : Nat) : Nat := f.ofDatum (g.decode bits)

end Format

/-! ## §4 Rounding to whole numbers -/

namespace Datum

/-- Rounds the magnitude of a finite value to a whole number: `pick` gets the significand and the
number of its units in one. -/
def wholeBy (pick : Bool → Nat → Nat → Nat) : Datum → Datum
  | .finite negative m q =>
    if 0 ≤ q then .finite negative m q
    else .finite negative (pick negative m (1 <<< (-q).toNat)) 0
  | d => d

/-- The largest whole number that is not above the value. -/
def floor (d : Datum) : Datum :=
  d.wholeBy fun negative m one => if negative then (m + (one - 1)) / one else m / one

/-- The nearest whole number, a half going away from zero. -/
def round (d : Datum) : Datum :=
  d.wholeBy fun _ m one => (m + one / 2) / one

/-- The whole part as an integer, clamped to sixty-four bits; zero for what is no number. -/
def toInt : Datum → Int
  | .finite negative m q =>
    let whole := (m <<< q.toNat) >>> (-q).toNat
    if negative then max (-whole) (-0x8000000000000000) else min whole 0x7fffffffffffffff
  | .infinite negative => if negative then -0x8000000000000000 else 0x7fffffffffffffff
  | .nan _ _ => 0

end Datum

end CommonLut.Binary
