import CommonLut.Operator.Schema
import CommonLut.Pixel

/-!
# Range nodes

With all four bounds a range maps the interval between the input bounds onto the one between the
output bounds. With only the lower or only the upper pair it shifts values, and clamps on that
side. Without bounds it only converts between its bit depths. The bounds are given in the depths of
the node.

Main definitions: `Range`, `Range.remap`, `Range.apply`, `Range.schema`.
-/

namespace CommonLut

/-- Whether values are clamped to the output bounds. -/
inductive RangeStyle where
  | clamp
  | noClamp
deriving DecidableEq, Repr

namespace RangeStyle

/-- The name of a style. -/
def token : RangeStyle → String
  | clamp => "Clamp"
  | noClamp => "noClamp"

/-- The style with a token; the first letter may have either case. -/
def read (token : String) : Except Error RangeStyle :=
  readToken "Range style"
    [("Clamp", clamp), ("clamp", clamp), ("noClamp", noClamp), ("NoClamp", noClamp)] token

end RangeStyle

/-- The bounds that are given, and the style if one is. -/
structure Range (ω : Type) where
  minIn : Option ω := none
  maxIn : Option ω := none
  minOut : Option ω := none
  maxOut : Option ω := none
  style : Option RangeStyle := none
deriving BEq, Repr

namespace Range

variable {ω : Type}

/-- Ranges clamp unless the style says otherwise. -/
def clamps (r : Range ω) : Bool := r.style != some .noClamp

/-! ## §1 Evaluation -/

section

variable [Scalar ω]

/-- The value between bounds of either order. -/
@[specialize] def confine (x y v : ω) : ω :=
  Scalar.smaller (Scalar.larger v (Scalar.smaller x y)) (Scalar.larger x y)

/-- The remapped value, bounds and value being normalized. -/
@[specialize] def remap (r : Range ω) (v : ω) : ω :=
  match r.minIn, r.maxIn, r.minOut, r.maxOut with
  | some lowIn, some highIn, some lowOut, some highOut =>
    let factor := if highIn == lowIn then 0.0 else (highOut - lowOut) / (highIn - lowIn)
    let moved := (v - lowIn) * factor + lowOut
    if r.clamps then confine lowOut highOut moved else moved
  | some lowIn, _, some lowOut, _ =>
    let moved := v - lowIn + lowOut
    if r.clamps then Scalar.larger moved lowOut else moved
  | _, some highIn, _, some highOut =>
    let moved := v - highIn + highOut
    if r.clamps then Scalar.smaller moved highOut else moved
  | _, _, _, _ => v

/-- The range with its bounds normalized. -/
@[specialize] def normalize (r : Range ω) (input output : BitDepth) : Range ω :=
  { r with
    minIn := r.minIn.map (· / input.fullScale)
    maxIn := r.maxIn.map (· / input.fullScale)
    minOut := r.minOut.map (· / output.fullScale)
    maxOut := r.maxOut.map (· / output.fullScale) }

/-- The pixel after the range. -/
@[specialize] def apply {ν : Type} [Scalar ν] [Precision ω ν] (r : Range ω)
    (input output : BitDepth) (pixel : Pixel ν) : Pixel ν :=
  let normalized := r.normalize input output
  pixel.mapColor fun _ => Pixel.throughDepths input output normalized.remap

end

/-! ## §2 In documents -/

/-- A bound as a child element. -/
def boundElement (name : String) : Option Float → List Element
  | some x => [Element.leaf name (Text.format64 x)]
  | none => []

/-- How the range stands in its element. -/
def schema : Schema (Range Float) where
  ownAttributes := ["style"]
  readAttributes _ e := do return { style := ← readToken? RangeStyle.read e "style" }
  readChild _ r child :=
    match child.name with
    | "minInValue" => do return some { r with minIn := some (← child.numberText) }
    | "maxInValue" => do return some { r with maxIn := some (← child.numberText) }
    | "minOutValue" => do return some { r with minOut := some (← child.numberText) }
    | "maxOutValue" => do return some { r with maxOut := some (← child.numberText) }
    | _ => .ok none
  writeAttributes r := (r.style.map fun s => ("style", s.token)).toList
  writeChildren r :=
    boundElement "minInValue" r.minIn ++ boundElement "maxInValue" r.maxIn ++
      boundElement "minOutValue" r.minOut ++ boundElement "maxOutValue" r.maxOut

end Range

end CommonLut
