import CommonLut.Operator.Schema
import CommonLut.Pixel
import CommonLut.Text.Shortest

/-!
# Colour decision lists

A decision list scales and offsets each channel, raises it to a power, and then moves the colour
from or towards its luma by the saturation. The reverse styles undo the steps in reverse order.
Clamping styles confine values to the unit interval before the power and at the end; the others
leave values that are not positive out of the power.

Main definitions: `Cdl`, `Cdl.forward`, `Cdl.reverse`, `Cdl.apply`, `Cdl.schema`.
-/

namespace CommonLut

/-- Direction and clamping. -/
inductive CdlStyle where
  | fwd
  | fwdNoClamp
  | rev
  | revNoClamp
deriving DecidableEq, Repr

namespace CdlStyle

/-- The name of a style, in its first spelling. -/
def token : CdlStyle → String
  | fwd => "Fwd"
  | fwdNoClamp => "FwdNoClamp"
  | rev => "Rev"
  | revNoClamp => "RevNoClamp"

/-- Whether values are confined to the unit interval. -/
def clamps : CdlStyle → Bool
  | fwd | rev => true
  | fwdNoClamp | revNoClamp => false

/-- Whether the steps are undone. -/
def isReverse : CdlStyle → Bool
  | rev | revNoClamp => true
  | fwd | fwdNoClamp => false

/-- The style with a token, in either of the two spellings. -/
def read (token : String) : Except Error CdlStyle :=
  readToken "ASC_CDL style"
    [("Fwd", fwd), ("v1.2_Fwd", fwd), ("FwdNoClamp", fwdNoClamp), ("noClampFwd", fwdNoClamp),
      ("Rev", rev), ("v1.2_Rev", rev), ("RevNoClamp", revNoClamp), ("noClampRev", revNoClamp)]
    token

end CdlStyle

/-- The parameters of a decision list, three for the channels of a colour. -/
structure Cdl (ω : Type) where
  slope : Triple ω
  offset : Triple ω
  power : Triple ω
  saturation : ω
  style : CdlStyle := .fwd
deriving BEq, Repr

namespace Cdl

/-! ## §1 Evaluation -/

section

variable {ω : Type} [Analytic ω]

/-- The list that changes nothing. -/
def identity : Cdl ω :=
  { slope := (1.0, 1.0, 1.0), offset := (0.0, 0.0, 0.0), power := (1.0, 1.0, 1.0)
    saturation := 1.0 }

/-- The weighted sum of the channels that stands for brightness. -/
@[specialize] def luma (p : Triple ω) : ω :=
  p.1 * 0.2126 + p.2.1 * 0.7152 + p.2.2 * 0.0722

/-- The colour with its distance from the luma scaled. -/
@[specialize] def saturate (p : Triple ω) (saturation : ω) : Triple ω :=
  if saturation == 1.0 then p
  else
    let y := luma p
    p.map fun c => y + saturation * (c - y)

/-- A value confined to the unit interval in a clamping style. -/
@[specialize] def confine (style : CdlStyle) (x : ω) : ω :=
  if style.clamps then Scalar.unitClamp x else x

/-- Slope, offset and power of one channel. -/
@[specialize] def forwardChannel (style : CdlStyle) (slope offset power x : ω) : ω :=
  let v := x * slope + offset
  if style.clamps then Analytic.pow (Scalar.unitClamp v) power
  else if 0.0 < v then Analytic.pow v power
  else v

/-- Whether a parameter is far enough from zero to be divided by. -/
@[specialize] def isUsable (x : ω) : Bool := decide (1e-10 < Scalar.abs x)

/-- Power, offset and slope of one channel undone. -/
@[specialize] def reverseChannel (style : CdlStyle) (slope offset power x : ω) : ω :=
  let x := confine style x
  let x := if 0.0 < x ∧ isUsable power then Analytic.pow x (1.0 / power) else x
  let x := if isUsable slope then (x - offset) / slope else 0.0
  confine style x

/-- The forward direction on a normalized colour. -/
@[specialize] def forward (c : Cdl ω) (p : Triple ω) : Triple ω :=
  let channel := forwardChannel c.style
  let graded : Triple ω :=
    (channel c.slope.1 c.offset.1 c.power.1 p.1,
      channel c.slope.2.1 c.offset.2.1 c.power.2.1 p.2.1,
      channel c.slope.2.2 c.offset.2.2 c.power.2.2 p.2.2)
  (saturate graded c.saturation).map (confine c.style)

/-- The reverse direction on a normalized colour. -/
@[specialize] def reverse (c : Cdl ω) (p : Triple ω) : Triple ω :=
  let p := p.map (confine c.style)
  let p := if isUsable c.saturation then saturate p (1.0 / c.saturation) else p
  let channel := reverseChannel c.style
  (channel c.slope.1 c.offset.1 c.power.1 p.1,
    channel c.slope.2.1 c.offset.2.1 c.power.2.1 p.2.1,
    channel c.slope.2.2 c.offset.2.2 c.power.2.2 p.2.2)

/-- The list on a normalized colour. -/
@[specialize] def grade (c : Cdl ω) (p : Triple ω) : Triple ω :=
  if c.style.isReverse then c.reverse p else c.forward p

/-- The pixel after the list; one with fewer than three channels stays as it is. -/
@[specialize] def apply {ν : Type} [Scalar ν] [Precision ω ν] (c : Cdl ω)
    (input output : BitDepth) (pixel : Pixel ν) : Pixel ν :=
  pixel.mapTriple fun p =>
    (c.grade (p.map fun x => widen (input.normalize x))).map fun y =>
      output.denormalize (narrow y)

end

/-! ## §2 In documents -/

/-- Slope, offset and power as far as an element gives them. -/
def readSop (c : Cdl Float) (e : Element) : Except Error (Cdl Float) :=
  e.children.foldlM (fun c child =>
    match child.name with
    | "Slope" => do return { c with slope := ← child.tripleText }
    | "Offset" => do return { c with offset := ← child.tripleText }
    | "Power" => do return { c with power := ← child.tripleText }
    | _ => .ok c) c

/-- The saturation as far as an element gives it. -/
def readSaturation (c : Cdl Float) (e : Element) : Except Error (Cdl Float) :=
  match e.child? "Saturation" with
  | some child => do return { c with saturation := ← child.numberText }
  | none => .ok c

/-- Three numbers as the text of an element. -/
def tripleElement (name : String) (p : Triple Float) : Element :=
  Element.leaf name (" ".intercalate ([p.1, p.2.1, p.2.2].map Text.format64))

/-- How the decision list stands in its element. -/
def schema : Schema (Cdl Float) where
  ownAttributes := ["style"]
  readAttributes _ e := do
    let style ← readToken? CdlStyle.read e "style"
    return { identity with style := style.getD .fwd }
  readChild _ c child :=
    match child.name with
    | "SOPNode" => do return some (← c.readSop child)
    | "SatNode" | "SATNode" => do return some (← c.readSaturation child)
    | _ => .ok none
  writeAttributes c := [("style", c.style.token)]
  writeChildren c :=
    [(Element.leaf "SOPNode" "").withChildren
      [tripleElement "Slope" c.slope, tripleElement "Offset" c.offset,
        tripleElement "Power" c.power],
      (Element.leaf "SatNode" "").withChildren
        [Element.leaf "Saturation" (Text.format64 c.saturation)]]

end Cdl

end CommonLut
