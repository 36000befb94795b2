import CommonLut.Node.Basic

/-!
# Process lists as elements

A node is written with its common attributes first, then those of its kind, then the unknown ones;
its children come in the order of common children and parameters. A colour correction has no
attributes.

Self-contained writing puts the nodes of a resolved reference in place of the reference; those of a
bypassed reference are written as bypassed.

Main definitions: `Node.write`, `ProcessList.write`.
-/

namespace CommonLut

/-! ## §1 Parts of a node -/

namespace NodeCommon

/-- The text of a flag. -/
def flagText (b : Bool) : String := if b then "true" else "false"

/-- An attribute for a value that may be absent. -/
def optionalAttribute (key : String) (value : Option String) : List (String × String) :=
  (value.map fun v => (key, v)).toList

/-- The attributes that every node may have; both depths are always written. -/
def writeAttributes (c : NodeCommon) : List (String × String) :=
  optionalAttribute "id" c.id ++ optionalAttribute "name" c.name ++
    [("inBitDepth", c.input.token), ("outBitDepth", c.output.token)] ++
    optionalAttribute "bypass" (c.bypass.map flagText)

/-- The children that every node may have. -/
def writeChildren (c : NodeCommon) : List Element :=
  c.elements ++ c.values.map (fun v => Element.leaf v.1 (Text.format64 v.2)) ++
    c.dynamicParams.map fun p => (Element.leaf "DynamicParameter" "").withAttribute "param" p

/-- The element of a node with attributes. -/
def element (c : NodeCommon) (kind : NodeKind) (own : List (String × String))
    (payload : List Element) : Element :=
  { name := kind.elementName
    attributes := c.writeAttributes ++ own ++ c.extra
    children := c.writeChildren ++ payload }

end NodeCommon

/-- The attributes and children of an operation's parameters. -/
def Operation.writeParams : Operation → List (String × String) × List Element
  | .matrix m => (Matrix.schema.writeAttributes m, Matrix.schema.writeChildren m)
  | .range r => (Range.schema.writeAttributes r, Range.schema.writeChildren r)
  | .cdl c | .colorCorrection c => (Cdl.schema.writeAttributes c, Cdl.schema.writeChildren c)
  | .lut1D l => (Lut1D.schema.writeAttributes l, Lut1D.schema.writeChildren l)
  | .lut3D l => (Lut3D.schema.writeAttributes l, Lut3D.schema.writeChildren l)
  | .log c => (LogCurve.schema.writeAttributes c, LogCurve.schema.writeChildren c)
  | .gamma c => (GammaCurve.schema.writeAttributes c, GammaCurve.schema.writeChildren c)
  | .exposureContrast e =>
    (ExposureContrast.schema.writeAttributes e, ExposureContrast.schema.writeChildren e)

/-- The element of an operation. -/
def Operation.write (c : NodeCommon) (op : Operation) : Element :=
  let (own, payload) := op.writeParams
  match op with
  | .colorCorrection _ =>
    { name := op.kind.elementName, children := c.writeChildren ++ payload }
  | _ => c.element op.kind own payload

/-- The element with its bypass flag set. -/
def Element.bypassed (e : Element) : Element :=
  { e with attributes := e.attributes.filter (fun a => a.1 != "bypass") ++ [("bypass", "true")] }

/-! ## §2 Nodes and lists -/

mutual
/-- The elements of a node: one, or those of a resolved reference's nodes. -/
def Node.write (selfContained : Bool) : Node → List Element
  | .operation c op => [op.write c]
  | .group c nodes => [c.element .group [] (Node.writeAll selfContained nodes)]
  | .reference c target => [c.element .reference (Target.schema.writeAttributes target) []]
  | .resolved c target _ nodes =>
    if selfContained then
      let inlined := Node.writeAll selfContained nodes
      if c.bypass.getD false then inlined.map Element.bypassed else inlined
    else [c.element .reference (Target.schema.writeAttributes target) []]
termination_by structural n => n

/-- The elements of a list of nodes. -/
def Node.writeAll (selfContained : Bool) : List Node → List Element
  | [] => []
  | n :: ns => n.write selfContained ++ Node.writeAll selfContained ns
termination_by structural ns => ns
end

/-- The attributes of a list. -/
def ListHeader.writeAttributes (h : ListHeader) : List (String × String) :=
  ("id", h.id) :: NodeCommon.optionalAttribute "name" h.name ++
    NodeCommon.optionalAttribute "inverseOf" h.inverseOf ++
    NodeCommon.optionalAttribute "compCLFversion" h.version ++ h.extra

/-- The root element of a list. -/
def ProcessList.write (l : ProcessList) (selfContained : Bool) : Element :=
  { name := "ProcessList"
    attributes := l.header.writeAttributes
    children := l.header.elements ++ l.header.values.map (fun v => Element.leaf v.1 v.2) ++
      Node.writeAll selfContained l.nodes }

end CommonLut
