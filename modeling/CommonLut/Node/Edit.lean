import CommonLut.Node.Basic

/-!
# Changing process lists

Nodes are addressed by their place in the list, followed by places inside groups and resolved
references. Beside changes of one node there is the change of the sample encoding everywhere.

Main definitions: `ProcessList.node?`, `ProcessList.modifyNode`, `ProcessList.withEncoding`.
-/

namespace CommonLut

/-! ## §1 Addresses -/

namespace Node

/-- The node at an address inside a node. -/
def inside? (n : Node) : List Nat → Option Node
  | [] => some n
  | i :: rest => (n.inner[i]?).bind fun m => m.inside? rest

/-- Changes the node at an address inside a node. -/
def modifyInside (f : Node → Node) : List Nat → Node → Node
  | [], n => f n
  | i :: rest, n => n.withInner (n.inner.modify i (modifyInside f rest))

end Node

namespace ProcessList

/-- The node at an address. -/
def node? (l : ProcessList) : List Nat → Option Node
  | [] => none
  | i :: rest => (l.nodes[i]?).bind fun n => n.inside? rest

/-- Changes the node at an address. -/
def modifyNode (l : ProcessList) (f : Node → Node) : List Nat → ProcessList
  | [] => l
  | i :: rest => { l with nodes := l.nodes.modify i (Node.modifyInside f rest) }

end ProcessList

/-! ## §2 Arrays -/

namespace Operation

/-- Changes the array of a matrix or a lookup table. -/
def modifyArray (f : SampleArray Double → SampleArray Double) : Operation → Operation
  | matrix m => matrix { m with array := f m.array }
  | lut1D l => lut1D { l with array := f l.array }
  | lut3D l => lut3D { l with array := f l.array }
  | op => op

/-- The array of a matrix or a lookup table. -/
def array? : Operation → Option (SampleArray Double)
  | matrix m => some m.array
  | lut1D l => some l.array
  | lut3D l => some l.array
  | _ => none

end Operation

/-- The array with another encoding. -/
def SampleArray.withEncoding {ω : Type} (encoding : SampleEncoding) (a : SampleArray ω) :
    SampleArray ω :=
  { a with encoding }

/-- The array with another sample at an index. -/
def SampleArray.withSample {ω : Type} (index : Nat) (x : ω) (a : SampleArray ω) :
    SampleArray ω :=
  { a with values := a.values.setIfInBounds index x }

namespace Node

/-- The array of a node that has one. -/
def array? : Node → Option (SampleArray Double)
  | operation _ op => op.array?
  | _ => none

/-- Changes the array of a node that has one. -/
def modifyArray (f : SampleArray Double → SampleArray Double) : Node → Node
  | operation c op => operation c (op.modifyArray f)
  | n => n

mutual
/-- Gives every array of a node an encoding, also in groups and resolved references. -/
def withEncoding (encoding : SampleEncoding) : Node → Node
  | operation c op => operation c (op.modifyArray (SampleArray.withEncoding encoding))
  | group c nodes => group c (withEncodingAll encoding nodes)
  | reference c target => reference c target
  | resolved c target header nodes => resolved c target header (withEncodingAll encoding nodes)
termination_by structural n => n

/-- Gives every array of a list of nodes an encoding. -/
def withEncodingAll (encoding : SampleEncoding) : List Node → List Node
  | [] => []
  | n :: ns => n.withEncoding encoding :: withEncodingAll encoding ns
termination_by structural ns => ns
end

/-- The node with another bypass flag. -/
def withBypass (bypass : Option Bool) (n : Node) : Node :=
  n.withCommon { n.common with bypass }

/-- The node with one more description. -/
def withDescription (text : String) (n : Node) : Node :=
  n.withCommon { n.common with
    elements := n.common.elements ++ [Element.leaf "Description" text] }

end Node

namespace ProcessList

/-- The list with one encoding in every array. -/
def withEncoding (l : ProcessList) (encoding : SampleEncoding) : ProcessList :=
  { l with nodes := Node.withEncodingAll encoding l.nodes }

/-- The list with one more node. -/
def push (l : ProcessList) (n : Node) : ProcessList :=
  { l with nodes := l.nodes ++ [n] }

/-- The list with a name. -/
def withName (l : ProcessList) (name : String) : ProcessList :=
  { l with header.name := some name }

/-- The list with one more description. -/
def withDescription (l : ProcessList) (text : String) : ProcessList :=
  { l with header.elements := l.header.elements ++ [Element.leaf "Description" text] }

end ProcessList

end CommonLut
