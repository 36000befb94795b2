import CommonLut.Operator.Channel
import CommonLut.Pixel
import CommonLut.Text.Shortest

/-!
# Logarithm nodes

Plain logarithms and powers of the bases two and ten, and the curves between linear light and
ten-bit film densities. The parameters of a density curve may differ between channels; a value that
is not given takes the default of the film scanner.

Main definitions: `LogCurve`, `DensityParams`, `LogCurve.eval`, `LogCurve.schema`.
-/

namespace CommonLut

/-- The curve and its direction. -/
inductive LogStyle where
  | log10
  | log2
  | antiLog10
  | antiLog2
  | logToLin
  | linToLog
deriving DecidableEq, Repr

namespace LogStyle

/-- Every style. -/
def all : List LogStyle := [log10, log2, antiLog10, antiLog2, logToLin, linToLog]

/-- The name of a style. -/
def token : LogStyle → String
  | log10 => "log10"
  | log2 => "log2"
  | antiLog10 => "antiLog10"
  | antiLog2 => "antiLog2"
  | logToLin => "logToLin"
  | linToLog => "linToLog"

/-- The style with a token. -/
def read (token : String) : Except Error LogStyle :=
  readToken "Log style" (all.map fun s => (s.token, s)) token

end LogStyle

/-- The parameters of a density curve, the reference points being ten-bit code values. -/
structure DensityParams (ω : Type) where
  gamma : Option ω := none
  refWhite : Option ω := none
  refBlack : Option ω := none
  highlight : Option ω := none
  shadow : Option ω := none
  channel : Option Channel := none
deriving BEq, Repr

/-- A style and the parameters of its channels, in document order. -/
structure LogCurve (ω : Type) where
  style : LogStyle
  params : List (DensityParams ω) := []
deriving BEq, Repr

/-! ## §1 Density curves -/

namespace DensityParams

variable {ω : Type} [Analytic ω]

/-- The negative gamma of film. -/
@[specialize] def gammaValue (p : DensityParams ω) : ω := p.gamma.getD 0.6

@[specialize] def whiteValue (p : DensityParams ω) : ω := p.refWhite.getD 685.0

@[specialize] def blackValue (p : DensityParams ω) : ω := p.refBlack.getD 95.0

/-- The linear value at reference white. -/
@[specialize] def highlightValue (p : DensityParams ω) : ω := p.highlight.getD 1.0

/-- The linear value at reference black. -/
@[specialize] def shadowValue (p : DensityParams ω) : ω := p.shadow.getD 0.0

/-- The print density of one code value. -/
def densityPerCode : ω := 0.002

/-- The largest code value. -/
def largestCode : ω := 1023.0

/-- The smallest positive normal single-precision value: no logarithm is taken below it. -/
def logFloor : ω := (1.0 : ω) / Scalar.ofNat (1 <<< 126)

/-- The exposure of reference black relative to reference white. -/
@[specialize] def blackExposure (p : DensityParams ω) : ω :=
  Analytic.pow 10.0 ((p.blackValue - p.whiteValue) * densityPerCode / p.gammaValue)

/-- From a normalized code value to linear light. -/
@[specialize] def toLinear (p : DensityParams ω) (x : ω) : ω :=
  let black := p.blackExposure
  let exposure :=
    Analytic.pow 10.0 ((x * largestCode - p.whiteValue) * densityPerCode / p.gammaValue)
  (exposure - black) / (1.0 - black) * (p.highlightValue - p.shadowValue) + p.shadowValue

/-- From linear light to a normalized code value. -/
@[specialize] def toCode (p : DensityParams ω) (x : ω) : ω :=
  let black := p.blackExposure
  let exposure :=
    (x - p.shadowValue) / (p.highlightValue - p.shadowValue) * (1.0 - black) + black
  (p.whiteValue +
    Analytic.log10 (Scalar.atLeast logFloor exposure) * p.gammaValue / densityPerCode) /
      largestCode

end DensityParams

namespace LogCurve

/-! ## §2 Evaluation -/

section

variable {ω : Type} [Analytic ω]

/-- The density parameters of a channel. -/
@[specialize] def paramsFor (c : LogCurve ω) (channel : Nat) : DensityParams ω :=
  (Channel.select? DensityParams.channel c.params channel).getD {}

/-- The curve of a channel on a normalized value. -/
@[specialize] def eval (c : LogCurve ω) (channel : Nat) (x : ω) : ω :=
  match c.style with
  | .log10 => Analytic.log10 (Scalar.atLeast DensityParams.logFloor x)
  | .log2 => Analytic.log2 (Scalar.atLeast DensityParams.logFloor x)
  | .antiLog10 => Analytic.pow 10.0 x
  | .antiLog2 => Analytic.pow 2.0 x
  | .logToLin => (c.paramsFor channel).toLinear x
  | .linToLog => (c.paramsFor channel).toCode x

/-- The pixel after the curve. -/
@[specialize] def apply {ν : Type} [Scalar ν] [Precision ω ν] (c : LogCurve ω)
    (input output : BitDepth) (pixel : Pixel ν) : Pixel ν :=
  pixel.mapColor fun i => Pixel.throughDepths input output (c.eval i)

end

/-! ## §3 In documents -/

/-- The parameters that an element gives. -/
def readParams (e : Element) : Except Error (DensityParams Float) := do
  return {
    gamma := ← e.numberAttribute "gamma"
    refWhite := ← e.numberAttribute "refWhite"
    refBlack := ← e.numberAttribute "refBlack"
    highlight := ← e.numberAttribute "highlight"
    shadow := ← e.numberAttribute "shadow"
    channel := ← readToken? Channel.read e "channel" }

/-- The element of parameters. -/
def writeParams (p : DensityParams Float) : Element :=
  ((((((Element.leaf "LogParams" "").withAttribute? "gamma"
    (p.gamma.map Text.format64)).withAttribute? "refWhite"
    (p.refWhite.map Text.format64)).withAttribute? "refBlack"
    (p.refBlack.map Text.format64)).withAttribute? "highlight"
    (p.highlight.map Text.format64)).withAttribute? "shadow"
    (p.shadow.map Text.format64)).withAttribute? "channel"
    (p.channel.map Channel.token)

/-- How the curve stands in its element. -/
def schema : Schema (LogCurve Float) where
  ownAttributes := ["style"]
  readAttributes _ e := do return { style := ← LogStyle.read (← e.requiredAttribute "style") }
  readChild _ c child :=
    if child.name = "LogParams" then do
      return some { c with params := c.params ++ [← readParams child] }
    else .ok none
  writeAttributes c := [("style", c.style.token)]
  writeChildren c := c.params.map writeParams

end LogCurve

end CommonLut
