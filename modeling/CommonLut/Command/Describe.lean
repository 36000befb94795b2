import CommonLut.Node.Basic

/-!
# Describing a process list

The lines that tell about a list: its attributes and descriptions, the depths at its two ends, and
its nodes, on request with what is inside groups and resolved references.

Main definitions: `ProcessList.describe`.
-/

namespace CommonLut

/-- What a line tells about the kind of a node. -/
def Node.detail : Node → String
  | .reference _ target => " path=" ++ target.path ++ " (unresolved)"
  | .resolved _ target _ _ => " path=" ++ target.path ++ " (resolved)"
  | .operation _ (.lut1D l) => " size=" ++ showDimensions l.array.dims
  | .operation _ (.lut3D l) => " size=" ++ showDimensions l.array.dims
  | _ => ""

/-- The line of a node. -/
def Node.headline (index depth : Nat) (n : Node) : String :=
  let idText :=
    match n.common.id with
    | some id => " id=" ++ id
    | none => ""
  String.ofList (List.replicate (2 * depth) ' ') ++ "[" ++ Text.decimal index ++ "] " ++
    n.kind.elementName ++ " " ++ n.input.token ++ " -> " ++ n.output.token ++ idText ++
    (if n.isBypassed then " (bypassed)" else "") ++ n.detail

mutual
/-- The lines of a node, what is inside coming one level deeper. -/
def Node.describe (expand : Bool) (index depth : Nat) : Node → List String
  | .operation c op => [(Node.operation c op).headline index depth]
  | .group c nodes =>
    (Node.group c nodes).headline index depth ::
      if expand then Node.describeAll expand 0 (depth + 1) nodes else []
  | .reference c target => [(Node.reference c target).headline index depth]
  | .resolved c target header nodes =>
    (Node.resolved c target header nodes).headline index depth ::
      if expand then Node.describeAll expand 0 (depth + 1) nodes else []
termination_by structural n => n

/-- The lines of nodes, numbered from `index` on. -/
def Node.describeAll (expand : Bool) (index depth : Nat) : List Node → List String
  | [] => []
  | n :: ns => n.describe expand index depth ++ Node.describeAll expand (index + 1) depth ns
termination_by structural ns => ns
end

/-- A line for a value that may be absent. -/
def optionalLine (label : String) : Option String → List String
  | some value => [label ++ value]
  | none => []

/-- The lines of a list. -/
def ProcessList.describe (expand : Bool) (l : ProcessList) : List String :=
  ["  Id:         " ++ l.header.id] ++
    optionalLine "  Name:       " l.header.name ++
    optionalLine "  Version:    " l.header.version ++
    optionalLine "  Inverse of: " l.header.inverseOf ++
    l.descriptions.map ("  Desc:       " ++ ·) ++
    ["  Bit depths: " ++ l.input.token ++ " -> " ++ l.output.token,
      "  Nodes:      " ++ Text.decimal l.nodes.length] ++
    Node.describeAll expand 0 2 l.nodes

end CommonLut
