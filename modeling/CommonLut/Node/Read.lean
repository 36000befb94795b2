import CommonLut.Node.Basic

/-!
# Process lists from elements

Elements that name a kind of node are read as nodes, if the profile accepts the kind. Children that
belong to nothing known are kept when they are plain: in a node when they hold a number, in a list
always. Every other unknown element is skipped.

How the target of a reference is found is a parameter: `link` gives the list of a target, nothing
when the reference stays unresolved, or an error that stops the reading.

Main definitions: `Node.read`, `ProcessList.read`.
-/

namespace CommonLut

/-- How the targets of references are looked up. -/
abbrev Link := Target → Except Error (Option ProcessList)

/-! ## §1 What every node carries -/

namespace NodeCommon

/-- The attributes that every node may have. -/
def ownAttributes : List String := ["id", "name", "inBitDepth", "outBitDepth", "bypass"]

/-- The depth in an attribute, which has to be there. -/
def readDepth (e : Element) (key : String) : Except Error BitDepth := do
  let token ← e.requiredAttribute key
  match BitDepth.ofToken? token with
  | some depth => .ok depth
  | none => .error (.invalidBitDepth (Text.trim token))

/-- The common attributes of an element; those of its kind are listed in `kindAttributes`. -/
def readAttributes (e : Element) (kindAttributes : List String) : Except Error NodeCommon := do
  let input ← readDepth e "inBitDepth"
  let output ← readDepth e "outBitDepth"
  let bypass ← e.flagAttribute "bypass"
  return {
    id := e.attribute? "id"
    name := e.attribute? "name"
    input, output, bypass
    extra := e.attributes.filter fun a =>
      !ownAttributes.contains a.1 && !kindAttributes.contains a.1 }

/-- A child that does not belong to the kind of the node. -/
def readChild (options : ReadOptions) (c : NodeCommon) (child : Element) :
    Except Error NodeCommon :=
  if child.name = "Description" then .ok { c with elements := c.elements ++ [child] }
  else if child.name = "DynamicParameter" then do
    options.require .autodesk "DynamicParameter"
    let param ← child.requiredAttribute "param"
    return { c with dynamicParams := c.dynamicParams ++ [param] }
  else
    match Element.number? child.text with
    | some x =>
      .ok (if child.isPlain then { c with values := c.values ++ [(child.name, x)] } else c)
    | none => .ok c

end NodeCommon

/-! ## §2 Nodes without nodes inside -/

namespace Schema

variable {α : Type}

/-- One more child: the kind's own or a common one. -/
def step (s : Schema α) (options : ReadOptions) (state : NodeCommon × α) (child : Element) :
    Except Error (NodeCommon × α) := do
  match ← s.readChild options state.2 child with
  | some params => return (state.1, params)
  | none => return (← state.1.readChild options child, state.2)

/-- The children and the final check, from what the attributes gave. -/
def readChildren (s : Schema α) (options : ReadOptions) (e : Element) (common : NodeCommon)
    (params : α) : Except Error (NodeCommon × α) := do
  let (common, params) ← e.children.foldlM (s.step options) (common, params)
  return (common, ← s.finish e.name common.output params)

/-- The common part and the parameters of an element. -/
def read (s : Schema α) (options : ReadOptions) (e : Element) :
    Except Error (NodeCommon × α) := do
  let common ← NodeCommon.readAttributes e s.ownAttributes
  let params ← s.readAttributes options e
  s.readChildren options e common params

/-- The operation of an element. -/
def readOperation (s : Schema α) (build : α → Operation) (options : ReadOptions) (e : Element) :
    Except Error Node := do
  let (common, params) ← s.read options e
  return .operation common (build params)

end Schema

/-- A colour correction: attributes mean nothing, and the direction is forward with clamping. -/
def readColorCorrection (options : ReadOptions) (e : Element) : Except Error Node := do
  let (common, params) ← Cdl.schema.readChildren options e {} Cdl.identity
  return .operation common (.colorCorrection params)

/-- The node of a target that may have been found. -/
def Node.ofTarget (common : NodeCommon) (target : Target) : Option ProcessList → Node
  | some list => .resolved common target list.header list.nodes
  | none => .reference common target

/-- A reference with its target looked up. -/
def readReference (link : Link) (options : ReadOptions) (e : Element) : Except Error Node := do
  let (common, target) ← Target.schema.read options e
  return Node.ofTarget common target (← link target)

/-! ## §3 Nodes and lists -/

/-- Fails unless the profile accepts a kind. -/
def NodeKind.require (kind : NodeKind) (options : ReadOptions) : Except Error Unit :=
  match kind.extension? with
  | some extension => options.require extension kind.elementName
  | none => .ok ()

mutual
/-- The node that an element describes, if it names a kind of node. -/
def Node.read (link : Link) (options : ReadOptions) : Element → Except Error (Option Node)
  | ⟨name, attributes, text, children⟩ =>
    let e : Element := ⟨name, attributes, text, children⟩
    match NodeKind.ofElementName? name with
    | none => .ok none
    | some kind => do
      kind.require options
      let node ←
        match kind with
        | .matrix => Matrix.schema.readOperation .matrix options e
        | .range => Range.schema.readOperation .range options e
        | .cdl => Cdl.schema.readOperation .cdl options e
        | .lut1D => Lut1D.schema.readOperation .lut1D options e
        | .lut3D => Lut3D.schema.readOperation .lut3D options e
        | .log => LogCurve.schema.readOperation .log options e
        | .gamma => GammaCurve.schema.readOperation .gamma options e
        | .exposureContrast => ExposureContrast.schema.readOperation .exposureContrast options e
        | .colorCorrection => readColorCorrection options e
        | .reference => readReference link options e
        | .group => do
          let common ← NodeCommon.readAttributes e []
          let (common, nodes) ← Node.readInside link options common children
          pure (.group common nodes)
      return some node
termination_by structural e => e

/-- The children of a group: nodes, and what every node may have. -/
def Node.readInside (link : Link) (options : ReadOptions) (common : NodeCommon) :
    List Element → Except Error (NodeCommon × List Node)
  | [] => .ok (common, [])
  | child :: rest => do
    match ← Node.read link options child with
    | some node =>
      let (common, nodes) ← Node.readInside link options common rest
      return (common, node :: nodes)
    | none =>
      let common ← common.readChild options child
      Node.readInside link options common rest
termination_by structural es => es
end

namespace ProcessList

/-- The attributes that every list may have. -/
def ownAttributes : List String := ["id", "name", "inverseOf", "compCLFversion"]

/-- The names of the elements that describe a list. -/
def metadataNames : List String := ["Description", "InputDescriptor", "OutputDescriptor", "Info"]

/-- A child of a list. -/
def readChild (link : Link) (options : ReadOptions) (l : ProcessList) (child : Element) :
    Except Error ProcessList := do
  match ← Node.read link options child with
  | some node => return { l with nodes := l.nodes ++ [node] }
  | none =>
    if metadataNames.contains child.name then
      return { l with header.elements := l.header.elements ++ [child] }
    else if child.isPlain then
      return { l with header.values := l.header.values ++ [(child.name, child.text)] }
    else return l

/-- The list that a root element describes. -/
def read (link : Link) (options : ReadOptions) (e : Element) : Except Error ProcessList := do
  if e.name ≠ "ProcessList" then throw (.content (.rootElement e.name))
  let id ← e.requiredAttribute "id"
  let header : ListHeader :=
    { id
      name := e.attribute? "name"
      inverseOf := e.attribute? "inverseOf"
      version := e.attribute? "compCLFversion"
      extra := e.attributes.filter fun a => !ownAttributes.contains a.1 }
  e.children.foldlM (readChild link options) { header }

end ProcessList

end CommonLut
