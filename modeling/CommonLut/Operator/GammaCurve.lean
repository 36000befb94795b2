import CommonLut.Operator.Channel
import CommonLut.Pixel
import CommonLut.Text.Shortest

/-!
# Gamma nodes

A power law, or the monitor curve: a power law with an offset that continues as a straight line
below its break point. Both have a forward direction, from encoded values to light, and a reverse
one. The parameters may differ between channels, and a channel without any is left alone.

Main definitions: `GammaCurve`, `GammaParams`, `GammaCurve.eval`, `GammaCurve.schema`.
-/

namespace CommonLut

/-- The curve and its direction. -/
inductive GammaStyle where
  | basicFwd
  | basicRev
  | moncurveFwd
  | moncurveRev
deriving DecidableEq, Repr

namespace GammaStyle

/-- Every style. -/
def all : List GammaStyle := [basicFwd, basicRev, moncurveFwd, moncurveRev]

/-- The name of a style. -/
def token : GammaStyle → String
  | basicFwd => "basicFwd"
  | basicRev => "basicRev"
  | moncurveFwd => "moncurveFwd"
  | moncurveRev => "moncurveRev"

/-- The style with a token. -/
def read (token : String) : Except Error GammaStyle :=
  readToken "Gamma style" (all.map fun s => (s.token, s)) token

end GammaStyle

/-- Exponent and offset, for one channel or for all. -/
structure GammaParams (ω : Type) where
  gamma : ω
  offset : Option ω := none
  channel : Option Channel := none
deriving BEq, Repr

/-- A style and the parameters of its channels, in document order. -/
structure GammaCurve (ω : Type) where
  style : GammaStyle
  params : List (GammaParams ω) := []
deriving BEq, Repr

/-! ## §1 The curves -/

namespace GammaParams

variable {ω : Type} [Analytic ω]

/-- The power law, negative values counting as zero. -/
@[specialize] def power (g x : ω) : ω := Analytic.pow (Scalar.atLeast 0.0 x) g

/-- The power law undone. -/
@[specialize] def root (g x : ω) : ω := Analytic.pow (Scalar.atLeast 0.0 x) (1.0 / g)

/-- Whether the monitor curve has a straight part. -/
@[specialize] def hasToe (g offset : ω) : Bool := !(decide (g ≤ 1.0) || decide (offset ≤ 0.0))

/-- The monitor curve from encoded values to light. -/
@[specialize] def monitor (g offset x : ω) : ω :=
  let breakPoint := offset / (g - 1.0)
  let slope :=
    (g - 1.0) / offset * Analytic.pow (offset * g / ((g - 1.0) * (1.0 + offset))) g
  if breakPoint ≤ x then Analytic.pow ((x + offset) / (1.0 + offset)) g else x * slope

/-- The monitor curve from light to encoded values. -/
@[specialize] def monitorReverse (g offset x : ω) : ω :=
  let breakPoint := Analytic.pow (offset * g / ((g - 1.0) * (1.0 + offset))) g
  let slope :=
    Analytic.pow ((g - 1.0) / offset) (g - 1.0) * Analytic.pow ((1.0 + offset) / g) g
  if breakPoint ≤ x then (1.0 + offset) * Analytic.pow x (1.0 / g) - offset else x * slope

/-- The curve of a style. Without a straight part the monitor curve is the power law. -/
@[specialize] def eval (p : GammaParams ω) (style : GammaStyle) (x : ω) : ω :=
  let offset := p.offset.getD 0.0
  match style with
  | .basicFwd => power p.gamma x
  | .basicRev => root p.gamma x
  | .moncurveFwd => if hasToe p.gamma offset then monitor p.gamma offset x else power p.gamma x
  | .moncurveRev =>
    if hasToe p.gamma offset then monitorReverse p.gamma offset x else root p.gamma x

end GammaParams

namespace GammaCurve

/-! ## §2 Evaluation -/

section

variable {ω : Type} [Analytic ω]

/-- The curve of a channel on a normalized value. -/
@[specialize] def eval (c : GammaCurve ω) (channel : Nat) (x : ω) : ω :=
  match Channel.select? GammaParams.channel c.params channel with
  | some p => p.eval c.style x
  | none => x

/-- The pixel after the curve. -/
@[specialize] def apply {ν : Type} [Scalar ν] [Precision ω ν] (c : GammaCurve ω)
    (input output : BitDepth) (pixel : Pixel ν) : Pixel ν :=
  pixel.mapColor fun i => Pixel.throughDepths input output (c.eval i)

end

/-! ## §3 In documents -/

/-- The parameters that an element gives; the exponent has to be there. -/
def readParams (e : Element) : Except Error (GammaParams Float) := do
  match ← e.numberAttribute "gamma" with
  | none => .error (.missingAttribute e.name "gamma")
  | some gamma =>
    return {
      gamma
      offset := ← e.numberAttribute "offset"
      channel := ← readToken? Channel.read e "channel" }

/-- The element of parameters. -/
def writeParams (p : GammaParams Float) : Element :=
  (((Element.leaf "GammaParams" "").withAttribute "gamma"
    (Text.format64 p.gamma)).withAttribute? "offset"
    (p.offset.map Text.format64)).withAttribute? "channel"
    (p.channel.map Channel.token)

/-- How the curve stands in its element. -/
def schema : Schema (GammaCurve Float) where
  ownAttributes := ["style"]
  readAttributes _ e := do return { style := ← GammaStyle.read (← e.requiredAttribute "style") }
  readChild _ c child :=
    if child.name = "GammaParams" then do
      return some { c with params := c.params ++ [← readParams child] }
    else .ok none
  writeAttributes c := [("style", c.style.token)]
  writeChildren c := c.params.map writeParams

end GammaCurve

end CommonLut
