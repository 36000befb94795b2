import CommonLut.Lookup.HalfDomain
import CommonLut.Markup.Element
import CommonLut.Options

/-!
# Index maps

An index map sends an input value to a position in a table by linear interpolation between
breakpoints, whose inputs never decrease. Beyond the breakpoints it is constant. A map can be
tabulated over the half floats; then it is evaluated by lookup in that table.

Main definitions: `IndexMap`, `IndexMap.ofPoints`, `IndexMap.search`, `IndexMap.apply`,
`IndexMap.read`, `IndexMap.write`.
-/

namespace CommonLut

/-- Breakpoints as pairs of input and output, the declared input resolution, and the table over the
half floats if there is one. -/
structure IndexMap (ω : Type) where
  dim : Nat
  points : List (ω × ω)
  cache : Option (SampleArray ω) := none
deriving BEq, Repr

namespace IndexMap

/-! ## §1 Building -/

section

variable {ω : Type} [Scalar ω]

/-- Whether no input is below the one before it. -/
def isOrdered : List (ω × ω) → Bool
  | p :: q :: rest => !decide (q.1 < p.1) && isOrdered (q :: rest)
  | _ => true

/-- A map over breakpoints, of which there is at least one. -/
def ofPoints (dim : Nat) (points : List (ω × ω)) : Except ContentFault (IndexMap ω) :=
  if points.isEmpty then .error .noBreakpoint
  else if !isOrdered points then .error .breakpointOrder
  else .ok { dim, points }

/-- A map over a list of inputs and a list of outputs of the same length. -/
def ofLists (dim : Nat) (inputs outputs : List ω) : Except ContentFault (IndexMap ω) :=
  if inputs.length ≠ outputs.length then
    .error (.breakpointCounts inputs.length outputs.length)
  else ofPoints dim (inputs.zip outputs)

/-! ## §2 Evaluation -/

/-- The value between the two breakpoints around `x`, the first such pair counting. -/
@[specialize] def between? (x : ω) : List (ω × ω) → Option ω
  | p :: q :: rest =>
    if p.1 ≤ x ∧ x < q.1 then some (p.2 + (q.2 - p.2) * ((x - p.1) / (q.1 - p.1)))
    else between? x (q :: rest)
  | _ => none

/-- The value of the piecewise linear function through the breakpoints, constant beyond them. -/
@[specialize] def interpolate (points : List (ω × ω)) (x : ω) : Option ω :=
  match points.head?, points.getLast? with
  | some first, some last =>
    if x ≤ first.1 then some first.2
    else if last.1 ≤ x then some last.2
    else some ((between? x points).getD last.2)
  | _, _ => none

/-- The map without its table. What is no finite number stays as it is. -/
@[specialize] def search {ν : Type} [Scalar ν] [Precision ω ν] (m : IndexMap ω) (x : ν) : ν :=
  if Scalar.isFinite x then ((interpolate m.points (widen x)).map narrow).getD x else x

end

/-- The map tabulated over every half pattern. -/
def withCache (m : IndexMap Float) : IndexMap Float :=
  let tabulated (bits : Nat) : Float :=
    widen (m.search (Binary.Half.toFloat32 (UInt16.ofNat bits)))
  { m with
    cache := some { dims := [65536, 1], values := ((List.range 65536).map tabulated).toArray } }

/-- The map, by its table if it has one. -/
def apply (m : IndexMap Float) (x : Float32) : Float32 :=
  match m.cache with
  | some table => table.halfInterpolated x 0
  | none => m.search x

/-! ## §3 In documents -/

/-- A breakpoint as a document spells it, the input and the output around an at sign. -/
def readPoint (entry : String) : Except Error (Float × Float) :=
  let chars := entry.toList
  let (before, after) := chars.span (· != '@')
  match after with
  | [] => .error (.content (.breakpointMark entry))
  | _ :: after =>
    match Element.number? (String.ofList before), Element.number? (String.ofList after) with
    | some x, some y => .ok (x, y)
    | _, _ => .error (.content (.breakpoint entry))

/-- The map that an element describes. -/
def read (options : ReadOptions) (e : Element) : Except Error (IndexMap Float) := do
  options.require .autodesk "IndexMap"
  let text ← e.requiredAttribute "dim"
  match Text.size? (Text.trim text) with
  | none => .error (.content (.indexMapDimension text))
  | some dim =>
    let points ← (Text.words e.text).mapM readPoint
    let map ← (ofPoints dim points).mapError .content
    return if options.cacheIndexMaps then map.withCache else map

/-- The element that describes a map. -/
def write (m : IndexMap Float) : Element :=
  let entries := m.points.map fun p => Text.format64 p.1 ++ "@" ++ Text.format64 p.2
  (Element.leaf "IndexMap" (" ".intercalate entries)).withAttribute "dim" (Text.decimal m.dim)

end IndexMap

end CommonLut
