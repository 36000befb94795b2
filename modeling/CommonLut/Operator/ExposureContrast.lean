import CommonLut.Operator.Schema
import CommonLut.Pixel
import CommonLut.Text.Shortest

/-!
# Exposure and contrast

Exposure is given in stops, and contrast turns around a pivot. The three styles take linear, video
and logarithmically encoded values, each with a reverse style that undoes it.

Main definitions: `ExposureContrast`, `ExposureContrast.eval`, `ExposureContrast.schema`.
-/

namespace CommonLut

/-- The encoding of the values, and the direction. -/
inductive ExposureStyle where
  | linear
  | linearRev
  | video
  | videoRev
  | log
  | logRev
deriving DecidableEq, Repr

namespace ExposureStyle

/-- Every style. -/
def all : List ExposureStyle := [linear, linearRev, video, videoRev, log, logRev]

/-- The name of a style. -/
def token : ExposureStyle → String
  | linear => "linear"
  | linearRev => "linearRev"
  | video => "video"
  | videoRev => "videoRev"
  | log => "log"
  | logRev => "logRev"

/-- The style with a token. -/
def read (token : String) : Except Error ExposureStyle :=
  readToken "ExposureContrast style" (all.map fun s => (s.token, s)) token

end ExposureStyle

/-- A style with its parameters as they are given; those too small are raised on use. -/
structure ExposureContrast (ω : Type) where
  style : ExposureStyle
  exposure : ω
  contrast : ω
  pivot : ω
deriving BEq, Repr

namespace ExposureContrast

/-! ## §1 Constants -/

section

variable {ω : Type} [Analytic ω]

/-- The exponent that encodes video, approximately. -/
def videoExponent : ω := 1.0 / 1.83

/-- The smallest pivot that is used. -/
def leastPivot : ω := 0.001

/-- The smallest contrast that is used. -/
def leastContrast : ω := 0.001

/-- The change of a logarithmic value for one stop. -/
def logStep : ω := 0.088

/-- The logarithmic value of the grey that reflects eighteen percent. -/
def logGray : ω := 0.435

/-- The parameters without effect, in a style. -/
def neutral (style : ExposureStyle) : ExposureContrast ω :=
  { style, exposure := 0.0, contrast := 1.0, pivot := 0.18 }

/-! ## §2 Evaluation -/

/-- Gain, then the power law that leaves the pivot where it is; negative values count as zero. -/
@[specialize] def powerAbout (gain pivot contrast x : ω) : ω :=
  if contrast == 1.0 then x * gain
  else Analytic.pow (Scalar.atLeast 0.0 (x * gain / pivot)) contrast * pivot

/-- The power law undone, then the gain. -/
@[specialize] def powerAboutReverse (gain pivot contrast x : ω) : ω :=
  if contrast == 1.0 then x / gain
  else Analytic.pow (Scalar.atLeast 0.0 (x / pivot)) (1.0 / contrast) * pivot / gain

@[specialize] def contrastUsed (e : ExposureContrast ω) : ω :=
  Scalar.atLeast leastContrast e.contrast

@[specialize] def pivotUsed (e : ExposureContrast ω) : ω :=
  Scalar.atLeast leastPivot e.pivot

/-- The factor of the exposure on linear values. -/
@[specialize] def gain (e : ExposureContrast ω) : ω := Analytic.pow 2.0 e.exposure

/-- The pivot as a logarithmic value. -/
@[specialize] def logPivot (e : ExposureContrast ω) : ω :=
  Scalar.atLeast 0.0 (Analytic.log2 (e.pivotUsed / 0.18) * logStep + logGray)

/-- The node on a normalized value. -/
@[specialize] def eval (e : ExposureContrast ω) (x : ω) : ω :=
  let contrast := e.contrastUsed
  match e.style with
  | .linear => powerAbout e.gain e.pivotUsed contrast x
  | .linearRev => powerAboutReverse e.gain e.pivotUsed contrast x
  | .video =>
    powerAbout (Analytic.pow e.gain videoExponent) (Analytic.pow e.pivotUsed videoExponent)
      contrast x
  | .videoRev =>
    powerAboutReverse (Analytic.pow e.gain videoExponent)
      (Analytic.pow e.pivotUsed videoExponent) contrast x
  | .log =>
    let pivot := e.logPivot
    x * contrast + (e.exposure * logStep - pivot) * contrast + pivot
  | .logRev =>
    let pivot := e.logPivot
    (x - pivot) / contrast + pivot - e.exposure * logStep

/-- The pixel after the node. -/
@[specialize] def apply {ν : Type} [Scalar ν] [Precision ω ν] (e : ExposureContrast ω)
    (input output : BitDepth) (pixel : Pixel ν) : Pixel ν :=
  pixel.mapColor fun _ => Pixel.throughDepths input output e.eval

end

/-! ## §3 In documents -/

/-- How the parameters stand in the element. -/
def schema : Schema (ExposureContrast Float) where
  ownAttributes := ["style"]
  readAttributes _ e := do
    return neutral (← ExposureStyle.read (← e.requiredAttribute "style"))
  readChild _ c child :=
    if child.name = "ECParams" then do
      let exposure ← child.numberAttribute "exposure"
      let contrast ← child.numberAttribute "contrast"
      let pivot ← child.numberAttribute "pivot"
      return some { c with
        exposure := exposure.getD c.exposure
        contrast := contrast.getD c.contrast
        pivot := pivot.getD c.pivot }
    else .ok none
  writeAttributes c := [("style", c.style.token)]
  writeChildren c :=
    [(((Element.leaf "ECParams" "").withAttribute "exposure"
      (Text.format64 c.exposure)).withAttribute "contrast"
      (Text.format64 c.contrast)).withAttribute "pivot" (Text.format64 c.pivot)]

end ExposureContrast

end CommonLut
