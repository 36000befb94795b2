import CommonLut.Node.Basic

/-!
# Equality of process lists

Two lists are equal when they agree in every field, numbers being compared as numbers: a number
that is none differs from itself, and the two zeros are equal.

Main definitions: the `BEq` instances of `Node` and `ProcessList`.
-/

namespace CommonLut

mutual
/-- Whether two nodes agree in every field. -/
def Node.equal : Node → Node → Bool
  | .operation c op, .operation c' op' => c == c' && op == op'
  | .group c nodes, .group c' nodes' => c == c' && Node.equalAll nodes nodes'
  | .reference c target, .reference c' target' => c == c' && target == target'
  | .resolved c target header nodes, .resolved c' target' header' nodes' =>
    c == c' && target == target' && header == header' && Node.equalAll nodes nodes'
  | _, _ => false
termination_by structural n => n

/-- Whether two lists of nodes agree node by node. -/
def Node.equalAll : List Node → List Node → Bool
  | [], [] => true
  | n :: ns, n' :: ns' => n.equal n' && Node.equalAll ns ns'
  | _, _ => false
termination_by structural ns => ns
end

instance : BEq Node := ⟨Node.equal⟩

instance : BEq ProcessList :=
  ⟨fun l l' => l.header == l'.header && Node.equalAll l.nodes l'.nodes⟩

end CommonLut
