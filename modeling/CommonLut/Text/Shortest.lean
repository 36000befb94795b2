import CommonLut.Binary.Format
import CommonLut.Text.Digits

/-!
# The shortest decimal that reads back

A finite value of a binary format is written with the fewest decimal digits that still round to
it. The reals that round to the value form an interval, whose ends belong to it exactly when the
significand is even. On each decimal grid only the two neighbours of the value can be the best
candidate, so the grids of one digit, two digits and so on are tried in turn; of two candidates
the nearer wins, and of two equally near ones the larger in magnitude.

Every grid that is tried consists of points of one fine grid, and so the interval is first narrowed
to points of that grid, which are counted in its steps. A grid that is tried has an even number of
fine steps between two points. What the value exceeds its fine point by is less than one of them,
and so it cannot matter for which of two candidates is the nearer one.

The digits are laid out positionally, without an exponent and without a trailing point.

Main definitions: `Shortest.digits`, `Shortest.positional`, `shortest`, `format64`, `format32`.
-/

namespace CommonLut.Text

namespace Shortest

open Binary

/-! ## §1 The rounding interval -/

/-- A positive value with the interval of the reals that round to it, as numerators over one
denominator. -/
structure Interval where
  low : Nat
  value : Nat
  high : Nat
  denominator : Nat
  closed : Bool

/-- The interval of `significand * 2 ^ exponent`. Below a power of two the values are twice as
dense, so the lower half gap is half as wide there. -/
def Interval.of (f : Format) (significand : Nat) (exponent : Int) : Interval :=
  let unit := 1 <<< (exponent - 2).toNat
  let lowerGap :=
    if significand = f.fieldUnit ∧ f.leastExponent < exponent then 1 else 2
  { low := (4 * significand - lowerGap) * unit
    value := 4 * significand * unit
    high := (4 * significand + 2) * unit
    denominator := 1 <<< (2 - exponent).toNat
    closed := significand % 2 == 0 }

/-- The points of a grid in an interval, counted in grid steps: the first and the last one that
round to the value, and the last one that is not above it. -/
structure GridSpan where
  first : Nat
  below : Nat
  last : Nat

/-- The points of the grid of multiples of `10 ^ place`. -/
def Interval.span (i : Interval) (place : Int) : GridSpan :=
  let finer := Nat.pow 10 (-place).toNat
  let step := Nat.pow 10 place.toNat * i.denominator
  { first := if i.closed then (i.low * finer + (step - 1)) / step else i.low * finer / step + 1
    below := i.value * finer / step
    last := if i.closed then i.high * finer / step else (i.high * finer - 1) / step }

/-! ## §2 The search over the grids -/

/-- The best point of the coarser grid of every `size`-th point, counted in its steps. -/
def GridSpan.best? (s : GridSpan) (size : Nat) : Option Nat :=
  let below := s.below / size
  let belowFits := 0 < below && s.first ≤ below * size
  let aboveFits := (below + 1) * size ≤ s.last
  if belowFits && aboveFits then some (if 2 * (s.below % size) < size then below else below + 1)
  else if belowFits then some below
  else if aboveFits then some (below + 1)
  else none

/-- A power of ten that is not below the value, from the binary logarithm. -/
def topPlace (i : Interval) : Int :=
  ((i.value.log2 : Int) + 1 - i.denominator.log2) * 30103 / 100000 + 1

/-- The number of grids to try, from the coarsest one: seventeen digits tell any two doubles
apart, and the top place may be one too high. -/
def gridCount : Nat := 19

/-- The grids to try, from the coarsest one: how many places each is above the fine one, and how
many fine steps its points are apart. -/
def grids : List (Nat × Nat) :=
  (List.range gridCount).map fun k => (gridCount - k, Nat.pow 10 (gridCount - k))

/-- The fewest digits that read back, and the place of the last one. -/
def digits (f : Format) (significand : Nat) (exponent : Int) : Nat × Int :=
  let i := Interval.of f significand exponent
  let fine := topPlace i - gridCount
  let span := i.span fine
  (grids.findSome? fun (place, size) =>
    (span.best? size).map fun d => (d, fine + place)).getD (0, 0)

/-! ## §3 Positional layout -/

/-- The value `digits * 10 ^ place` written without an exponent. -/
def positional (digits : Nat) (place : Int) : String :=
  let shown := Nat.toDigits 10 digits
  if 0 ≤ place then String.ofList (shown ++ List.replicate place.toNat '0')
  else
    let after := (-place).toNat
    let padded := List.replicate (after + 1 - shown.length) '0' ++ shown
    let whole := padded.length - after
    String.ofList (padded.take whole ++ '.' :: padded.drop whole)

end Shortest

open Binary

/-- The shortest text of a datum of a format. -/
def shortest (f : Format) : Datum → String
  | .finite negative significand exponent =>
    let magnitude :=
      if significand = 0 then "0"
      else
        let (d, place) := Shortest.digits f significand exponent
        Shortest.positional d place
    if negative then "-" ++ magnitude else magnitude
  | .infinite negative => if negative then "-inf" else "inf"
  | .nan _ _ => "NaN"

/-- The shortest text of a double. -/
def format64 (x : Float) : String :=
  shortest double (double.decode x.toBits.toNat)

/-- The shortest text of a single-precision value. -/
def format32 (x : Float32) : String :=
  shortest single (single.decode x.toBits.toNat)

end CommonLut.Text
