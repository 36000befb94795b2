import CommonLut.Operator.Cdl
import CommonLut.Operator.ExposureContrast
import CommonLut.Operator.GammaCurve
import CommonLut.Operator.LogCurve
import CommonLut.Operator.Lut1D
import CommonLut.Operator.Lut3D
import CommonLut.Operator.Matrix
import CommonLut.Operator.Range

/-!
# Nodes and process lists

A process list is an ordered sequence of nodes. A node is a single operation on pixels, a group of
nodes, or a reference to another process list, which is resolved or not. What every node carries,
whatever its kind, is in `NodeCommon`.

Main definitions: `NodeKind`, `NodeCommon`, `Operation`, `Node`, `ListHeader`, `ProcessList`.
-/

namespace CommonLut

/-! ## §1 Kinds -/

/-- The kinds of nodes, in the order in which the format documents them. -/
inductive NodeKind where
  | matrix
  | range
  | cdl
  | lut1D
  | lut3D
  | colorCorrection
  | log
  | gamma
  | group
  | exposureContrast
  | reference
deriving DecidableEq, Repr

namespace NodeKind

/-- Every kind. -/
def all : List NodeKind :=
  [matrix, range, cdl, lut1D, lut3D, colorCorrection, log, gamma, group, exposureContrast,
    reference]

/-- The name of the element. -/
def elementName : NodeKind → String
  | matrix => "Matrix"
  | range => "Range"
  | cdl => "ASC_CDL"
  | lut1D => "LUT1D"
  | lut3D => "LUT3D"
  | colorCorrection => "ColorCorrection"
  | log => "Log"
  | gamma => "Gamma"
  | group => "Group"
  | exposureContrast => "ExposureContrast"
  | reference => "Reference"

/-- The extension that a kind belongs to; the kinds of the core format belong to none. -/
def extension? : NodeKind → Option Extension
  | colorCorrection | log | gamma | group => some .duikerResearch
  | exposureContrast | reference => some .autodesk
  | _ => none

/-- The kind with an element name. -/
def ofElementName? (name : String) : Option NodeKind :=
  all.find? fun k => k.elementName == name

end NodeKind

/-! ## §2 Nodes -/

/-- What a node carries beside its operation. -/
structure NodeCommon where
  id : Option String := none
  name : Option String := none
  /-- The declared depth of the input values. -/
  input : BitDepth := .float32
  /-- The declared depth of the output values. -/
  output : BitDepth := .float32
  bypass : Option Bool := none
  /-- Descriptions, in document order. -/
  elements : List Element := []
  /-- Children that name a number and belong to no kind, in document order. -/
  values : List (String × Float) := []
  /-- The names of the parameters that may be changed later. -/
  dynamicParams : List String := []
  /-- Attributes that belong to nothing known, in document order. -/
  extra : List (String × String) := []
deriving BEq, Repr

/-- A single operation on pixels. -/
inductive Operation where
  | matrix (m : Matrix Double)
  | range (r : Range Float)
  | cdl (c : Cdl Float)
  /-- A decision list in an element without attributes. -/
  | colorCorrection (c : Cdl Float)
  | lut1D (l : Lut1D)
  | lut3D (l : Lut3D)
  | log (c : LogCurve Float)
  | gamma (c : GammaCurve Float)
  | exposureContrast (e : ExposureContrast Float)
deriving BEq, Repr

/-- Where the target of a reference is, as the document says it. -/
structure Target where
  path : String
  basePath : Option String := none
deriving DecidableEq, Repr

/-- How a target stands in the element of a reference. -/
def Target.schema : Schema Target where
  ownAttributes := ["path", "basePath"]
  readAttributes _ e := do
    return { path := ← e.requiredAttribute "path", basePath := e.attribute? "basePath" }
  writeAttributes t :=
    ("path", t.path) :: (t.basePath.map fun b => ("basePath", b)).toList

/-- What a process list carries beside its nodes. -/
structure ListHeader where
  id : String
  name : Option String := none
  inverseOf : Option String := none
  version : Option String := none
  /-- Attributes that are not known, in document order. -/
  extra : List (String × String) := []
  /-- Descriptions, descriptors and the information block, in document order. -/
  elements : List Element := []
  /-- Other children with text and nothing else, in document order. -/
  values : List (String × String) := []
deriving BEq, Repr

/-- One step of a process list. -/
inductive Node where
  | operation (common : NodeCommon) (op : Operation)
  | group (common : NodeCommon) (nodes : List Node)
  /-- A reference whose target is not known. -/
  | reference (common : NodeCommon) (target : Target)
  /-- A reference with the header and the nodes of its target. -/
  | resolved (common : NodeCommon) (target : Target) (header : ListHeader) (nodes : List Node)
deriving Repr

/-- A header and the nodes, which run in order. -/
structure ProcessList where
  header : ListHeader
  nodes : List Node := []
deriving Repr

/-! ## §3 What containers see -/

/-- The kind of the node around an operation. -/
def Operation.kind : Operation → NodeKind
  | .matrix _ => .matrix
  | .range _ => .range
  | .cdl _ => .cdl
  | .colorCorrection _ => .colorCorrection
  | .lut1D _ => .lut1D
  | .lut3D _ => .lut3D
  | .log _ => .log
  | .gamma _ => .gamma
  | .exposureContrast _ => .exposureContrast

namespace Node

/-- The kind of a node. -/
def kind : Node → NodeKind
  | operation _ op => op.kind
  | group _ _ => .group
  | reference _ _ | resolved _ _ _ _ => .reference

/-- What a node carries beside its operation. -/
def common : Node → NodeCommon
  | operation c _ | group c _ | reference c _ | resolved c _ _ _ => c

/-- The node with another common part. -/
def withCommon (c : NodeCommon) : Node → Node
  | operation _ op => operation c op
  | group _ nodes => group c nodes
  | reference _ target => reference c target
  | resolved _ target header nodes => resolved c target header nodes

/-- Whether containers skip the node. -/
def isBypassed (n : Node) : Bool := n.common.bypass.getD false

/-- The input depth that containers see: a colour correction always works on single floats. -/
def input (n : Node) : BitDepth :=
  if n.kind = .colorCorrection then .float32 else n.common.input

/-- The output depth that containers see. -/
def output (n : Node) : BitDepth :=
  if n.kind = .colorCorrection then .float32 else n.common.output

/-- The nodes inside a group or a resolved reference. -/
def inner : Node → List Node
  | group _ nodes | resolved _ _ _ nodes => nodes
  | _ => []

/-- The node with other nodes inside, if it holds any. -/
def withInner (nodes : List Node) : Node → Node
  | group c _ => group c nodes
  | resolved c target header _ => resolved c target header nodes
  | n => n

/-- The list of a resolved reference. -/
def embedded? : Node → Option ProcessList
  | resolved _ _ header nodes => some { header, nodes }
  | _ => none

end Node

/-- A node of a kind as it is before anything is read. -/
def NodeKind.blank : NodeKind → Node
  | .matrix => .operation {} (.matrix {})
  | .range => .operation {} (.range {})
  | .cdl => .operation {} (.cdl Cdl.identity)
  | .lut1D => .operation {} (.lut1D {})
  | .lut3D => .operation {} (.lut3D {})
  | .colorCorrection => .operation {} (.colorCorrection Cdl.identity)
  | .log => .operation {} (.log { style := .log10 })
  | .gamma => .operation {} (.gamma { style := .basicFwd })
  | .group => .group {} []
  | .exposureContrast => .operation {} (.exposureContrast (ExposureContrast.neutral .linear))
  | .reference => .reference {} { path := "" }

namespace ProcessList

/-- The format version that new lists declare. -/
def formatVersion : String := "3.0"

/-- An empty list. -/
def empty (id : String) : ProcessList :=
  { header := { id, version := some formatVersion } }

/-- The nodes that are not bypassed. -/
def active (l : ProcessList) : List Node :=
  l.nodes.filter fun n => !n.isBypassed

/-- The input depth of the first active node. -/
def input (l : ProcessList) : BitDepth :=
  (l.active.head?.map Node.input).getD .float32

/-- The output depth of the last active node. -/
def output (l : ProcessList) : BitDepth :=
  (l.active.getLast?.map Node.output).getD .float32

/-- The texts of the descriptions. -/
def descriptions (l : ProcessList) : List String :=
  (l.header.elements.filter fun e => e.name == "Description").map Element.text

end ProcessList

end CommonLut
