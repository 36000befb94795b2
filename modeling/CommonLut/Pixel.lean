import CommonLut.BitDepth
import CommonLut.Lookup.Lattice

/-!
# Pixels

A pixel is a list of channel values of any length. The first three channels are its colour; what
follows is carried along.

Main definitions: `Pixel`, `Pixel.mapColor`, `Pixel.mapTriple`, `Pixel.throughDepths`.
-/

namespace CommonLut

/-- The channel values of one pixel. -/
abbrev Pixel (ν : Type) := List ν

namespace Pixel

variable {ν : Type}

/-- Applies a function of channel number and value to each colour channel that is there. -/
@[specialize] def mapColor (f : Nat → ν → ν) : Pixel ν → Pixel ν
  | r :: g :: b :: rest => f 0 r :: f 1 g :: f 2 b :: rest
  | [r, g] => [f 0 r, f 1 g]
  | [r] => [f 0 r]
  | [] => []

/-- Applies a function to the colour, if all three channels are there. -/
@[specialize] def mapTriple (f : Triple ν → Triple ν) : Pixel ν → Pixel ν
  | r :: g :: b :: rest =>
    let (r', g', b') := f (r, g, b)
    r' :: g' :: b' :: rest
  | short => short

/-- A function on normalized parameters, applied to a channel value of one depth and giving a
channel value of another. -/
@[specialize] def throughDepths {ω : Type} [Scalar ν] [Precision ω ν] (input output : BitDepth)
    (f : ω → ω) (x : ν) : ν :=
  output.denormalize (narrow (f (widen (input.normalize x))))

end Pixel

end CommonLut
